/-
  Aos.Net.Http.Segments — the head of a request, however it is cut.

  `read_header` looks for the CR in front of a line feed in the piece it has
  just taken.  A cut between the two leaves the CR in the header, and behind
  the last header it hides the empty line; every other cut is made good by the
  next call.

  Main results:
    • `header_completed_none_iff` — the heads that have no defined reading;
    • `gets_line`, `takes_head` — what the pieces of the lines leave in the list;
    • `whole_ends_line` — the cuts in a line and behind it;
    • `runs_head` — the loop without and with such a cut;
    • `segmentation_iff` — the cuttings that change nothing.
-/
import Aos.Net.Http.Headers

namespace Aos

open Lib.Packed Lib.Lines Lib.Feed

namespace HTTP_Server_IO

/-! ## §1. Heads. -/

/-- The head of a request: the request line, the headers and the empty line, each
    without its line feed. -/
structure Request_Head where
  first : Bytes
  headers : List Bytes
  blank : Bytes
  first_lf : LF ∉ first
  headers_lf : ∀ t ∈ headers, LF ∉ t
  headers_text : ∀ t ∈ headers, t ≠ [] ∧ t ≠ [CR]
  blank_text : blank = [] ∨ blank = [CR]

namespace Request_Head

def bytes (h : Request_Head) : Bytes :=
  h.first ++ LF :: ((h.headers.map (· ++ [LF])).flatten ++ (h.blank ++ [LF]))

/-- The request line and the headers, without their line ends. -/
def entries (h : Request_Head) : List Bytes := strip h.first :: h.headers.map strip

end Request_Head

/-- Fed in these chunks the head leaves what it leaves in one. -/
def Same (io : HTTP_Server_IO) (head : Bytes) (chunks : List Bytes) : Prop :=
  ∃ c c', reader.Runs ⟨io.read_reset, [], chunks⟩ (some c) ∧
    reader.Runs ⟨io.read_reset, [], [head]⟩ (some c') ∧
    c.io.headers_ = c'.io.headers_ ∧ c.io.rd_byte_ = c'.io.rd_byte_ ∧
    c.io.flags_ = c'.io.flags_ ∧ c.io.rd_state_ = c'.io.rd_state_

/-- No cut falls between a CR and a line feed. -/
def Whole_Ends (chunks : List Bytes) : Prop :=
  ∀ before after, chunks = before ++ after → ¬ ([CR] <:+ before.flatten ∧ [LF] <+: after.flatten)

/-- A Content-Length that is no `int`. -/
def Undefined_Length (t : Bytes) : Prop :=
  t.head? = some 67 ∧ strncasecmp t (lit "content-length:") 15 = 0 ∧ atoi (c_str (t.drop 15)) = none

instance (t : Bytes) : Decidable (Undefined_Length t) :=
  inferInstanceAs (Decidable (_ ∧ _ ∧ _))

theorem whole_ends_take (chunks : List Bytes) :
    (∀ k ∈ List.range (chunks.length + 1),
      ¬ ([CR] <:+ (chunks.take k).flatten ∧ [LF] <+: (chunks.drop k).flatten))
      ↔ Whole_Ends chunks := by
  constructor
  · intro h before after hsplit hcut
    subst hsplit
    apply h before.length (List.mem_range.mpr (by rw [List.length_append]; omega))
    rw [List.take_left, List.drop_left]
    exact hcut
  · intro h k _ hcut
    exact h _ _ (List.take_append_drop k chunks).symm hcut

instance (chunks : List Bytes) : Decidable (Whole_Ends chunks) :=
  decidable_of_iff _ (whole_ends_take chunks)

/-! ## §2. The end of the head. -/

/-- What the loop over the headers meets. -/
theorem undefined_length_iff (L : List Bytes) :
    (∃ t ∈ L, Undefined_Length t) ↔ ¬ ∀ v ∈ L.filterMap length_text, atoi v ≠ none := by
  have hhead : ∀ t : Bytes, t.head? = some 67 ↔ deref t = 67 := by
    intro t
    cases t with
    | nil =>
        have hnul : ¬ deref [] = 67 := by decide
        exact ⟨fun h => absurd h (by simp), fun h => absurd h hnul⟩
    | cons c t => exact ⟨fun h => Option.some.inj h, fun h => congrArg some h⟩
  constructor
  · intro h hall
    obtain ⟨t, ht, hc, hname, hnum⟩ := h
    exact hall _ (List.mem_filterMap.mpr ⟨t, ht, if_pos ⟨(hhead t).mp hc, hname⟩⟩) hnum
  · intro h
    by_contra hnone
    apply h
    intro v hv hnum
    obtain ⟨t, ht, htext⟩ := List.mem_filterMap.mp hv
    obtain ⟨hc, hname, rfl⟩ := length_text_name htext
    exact hnone ⟨t, ht, (hhead t).mpr hc, hname, hnum⟩

/-- **The heads without a defined reading.** -/
theorem header_completed_none_iff (first : Bytes) (L : List Bytes) :
    (closed (first :: L)).header_completed = none ↔ ∃ t ∈ L, Undefined_Length t := by
  unfold header_completed
  rw [Option.map_eq_none_iff, undefined_length_iff]
  show (at_end first L).parse_header = none ↔ _
  rw [parse_header_lines, parse_lines_eq]
  split
  · rename_i hall
    exact ⟨fun h => absurd h (by simp), fun h => absurd hall h⟩
  · rename_i hall
    exact ⟨fun _ => hall, fun _ => rfl⟩

/-- A head that is completed keeps its headers and ends in RD_OK or RD_DATA. -/
theorem header_completed_frame {L : List Bytes} (hL : L ≠ []) {io' : HTTP_Server_IO}
    (h : (closed L).header_completed = some io') :
    io'.headers_ = packed L ∧ (io'.rd_state_ = .RD_OK ∨ io'.rd_state_ = .RD_DATA) := by
  obtain ⟨first, L, rfl⟩ := List.exists_cons_of_ne_nil hL
  obtain ⟨io₁, hparse, rfl⟩ := Option.map_eq_some_iff.mp h
  have hkept : io₁.headers_ = packed (first :: L) ∧ io₁.rd_state_ = .RD_OK := by
    have hloop : (at_end first L).parse_header = some io₁ := hparse
    rw [parse_header_lines, parse_lines_eq] at hloop
    obtain ⟨_, hio⟩ := Option.ite_none_right_eq_some.mp hloop
    obtain rfl := Option.some.inj hio
    exact ⟨rfl, rfl⟩
  simp only
  split
  · exact ⟨hkept.1, Or.inr rfl⟩
  · exact ⟨hkept.1, Or.inl hkept.2⟩

/-! ## §3. One call. -/

/-- What a call takes is the first piece of the block. -/
theorem pieces_get_line {mb : Bytes} (hne : mb ≠ []) :
    pieces LF mb = get_line mb LF :: pieces LF (mb.drop (get_line mb LF).length) := by
  by_cases hlf : LF ∈ mb
  · obtain ⟨t, rest, rfl, ht⟩ := List.eq_append_cons_of_mem hlf
    have hcons : t ++ LF :: rest = t ++ [LF] ++ rest := by simp
    rw [pieces_line ht, get_line_delim t rest LF ht, hcons, List.drop_left]
  · rw [get_line_none mb LF hlf, List.drop_length, pieces_nil, pieces_text hlf hne]

/-- The call for a piece, in any block. -/
theorem read_first {io : HTTP_Server_IO} (hst : io.rd_state_ = .RD_MORE ∨ io.rd_state_ = .RD_HEADER)
    {mb p : Bytes} {rest : List Bytes} (hne : mb ≠ []) (h : pieces LF mb <+: [p] ++ rest) :
    pieces LF mb = [p] ++ pieces LF (mb.drop p.length) ∧
      reader.read io mb = (io.read_piece p).map fun io' => (io', mb.drop p.length) := by
  rw [pieces_get_line hne] at h ⊢
  -- the first piece of the block is the one that is expected
  obtain ⟨hline, _⟩ := List.cons_prefix_cons.mp h
  refine ⟨by rw [hline]; rfl, ?_⟩
  rw [reader_header hst, hline]

theorem not_done {io : HTTP_Server_IO} (hst : io.rd_state_ = .RD_MORE ∨ io.rd_state_ = .RD_HEADER) :
    reader.done io = false := by
  show decide (io.rd_state_ = .RD_OK ∨ io.rd_state_ = .RD_ERR_HEADER_OVERSIZE) = false
  rcases hst with hmore | hheader
  · rw [hmore]
    rfl
  · rw [hheader]
    rfl

/-- **A piece is one call.** -/
theorem takes_piece {io io' : HTTP_Server_IO}
    (hst : io.rd_state_ = .RD_MORE ∨ io.rd_state_ = .RD_HEADER) {p : Bytes}
    (h : io.read_piece p = some io') : reader.Takes (pieces LF) io [p] io' := by
  apply reader.takes_of_call (pieces_nil LF) (not_done hst) (by simp)
  intro mb rest hmb hpre
  obtain ⟨hpieces, hread⟩ := read_first hst hmb hpre
  refine ⟨io', mb.drop p.length, [p], [], rfl, hpieces, ?_, reader.takes_nil _ io'⟩
  rw [hread, h]
  rfl

theorem fails_piece {io : HTTP_Server_IO}
    (hst : io.rd_state_ = .RD_MORE ∨ io.rd_state_ = .RD_HEADER) {p : Bytes}
    (h : io.read_piece p = none) : reader.Fails (pieces LF) io [p] := by
  apply reader.fails_of_call (pieces_nil LF) (not_done hst) (by simp)
  intro mb rest hmb hpre
  obtain ⟨_, hread⟩ := read_first hst hmb hpre
  refine Or.inl ?_
  rw [hread, h]
  rfl

/-! ## §4. Heads that are too long. -/

/-- The reader gives up on the way through `ps`. -/
def Refuses (io : HTTP_Server_IO) (ps : List Bytes) : Prop :=
  ∃ qs rest io', ps = qs ++ rest ∧ reader.Takes (pieces LF) io qs io' ∧
    io'.rd_state_ = .RD_ERR_HEADER_OVERSIZE

/-- The pieces take the reader from `io` to `io'`, or it gives up on the way; they
    come to no more than `size` bytes. -/
def Gets (io : HTTP_Server_IO) (ps : List Bytes) (io' : HTTP_Server_IO) (size : Nat) : Prop :=
  reader.Takes (pieces LF) io ps io' ∨ Refuses io ps ∧ HEADER_MAX < size

theorem Gets.takes {io io' : HTTP_Server_IO} {ps : List Bytes} {size : Nat}
    (h : Gets io ps io' size) (hsize : size ≤ HEADER_MAX) : reader.Takes (pieces LF) io ps io' :=
  h.resolve_right fun hlong => absurd hlong.2 (by omega)

theorem Gets.larger {io io' : HTTP_Server_IO} {ps : List Bytes} {m n : Nat}
    (h : Gets io ps io' m) (hle : m ≤ n) : Gets io ps io' n :=
  h.imp_right fun hlong => ⟨hlong.1, by omega⟩

theorem gets_nil (io : HTTP_Server_IO) (size : Nat) : Gets io [] io size :=
  Or.inl (reader.takes_nil _ io)

theorem Refuses.append {io : HTTP_Server_IO} {ps : List Bytes} (h : Refuses io ps)
    (ps' : List Bytes) : Refuses io (ps ++ ps') := by
  obtain ⟨qs, rest, io', rfl, htakes, herr⟩ := h
  exact ⟨qs, rest ++ ps', io', List.append_assoc qs rest ps', htakes, herr⟩

/-- **One after the other**, and the second has the larger size. -/
theorem Gets.trans {io io' io'' : HTTP_Server_IO} {ps ps' : List Bytes} {m n : Nat}
    (h : Gets io ps io' m) (h' : Gets io' ps' io'' n) (hle : m ≤ n) :
    Gets io (ps ++ ps') io'' n := by
  rcases h with htakes | ⟨hrefuses, hlong⟩
  -- it gives up in the first part, or has taken it and gives up in the second
  · rcases h' with htakes' | ⟨⟨qs, rest, io₁, rfl, hqs, herr⟩, hlong⟩
    · exact Or.inl (htakes.trans htakes')
    · exact Or.inr ⟨⟨ps ++ qs, rest, io₁, (List.append_assoc ps qs rest).symm,
        htakes.trans hqs, herr⟩, hlong⟩
  · exact Or.inr ⟨hrefuses.append ps', by omega⟩

/-- **A piece** is taken, or there is no room for it. -/
theorem gets_piece {io io' : HTTP_Server_IO}
    (hst : io.rd_state_ = .RD_MORE ∨ io.rd_state_ = .RD_HEADER) {p : Bytes}
    (h : io.headers_.strs_.length + p.length ≤ HEADER_MAX → io.read_piece p = some io') :
    Gets io [p] io' (io.headers_.strs_.length + p.length) := by
  by_cases hsize : io.headers_.strs_.length + p.length ≤ HEADER_MAX
  · exact Or.inl (takes_piece hst (h hsize))
  · have hread : io.read_piece p = some { io with rd_state_ := .RD_ERR_HEADER_OVERSIZE } :=
      if_pos (by omega)
    exact Or.inr ⟨⟨[p], [], _, rfl, takes_piece hst hread, rfl⟩, by omega⟩

/-! ## §5. One line. -/

/-- The object takes what comes next for a new entry behind `L`. -/
structure Ready (io : HTTP_Server_IO) (L : List Bytes) : Prop where
  part : ∀ p, LF ∉ p → Gets io [p] (opened L p) (total L + p.length)
  line : ∀ t, (L ≠ [] → strip t ≠ []) →
    Gets io [t ++ [LF]] (closed (L ++ [strip t])) (total L + (t.length + 1))

theorem ready_start : Ready start [] := by
  -- the first entry of the list is appended to: there is none to end
  have hlen : total ([] : List Bytes) = start.headers_.strs_.length := rfl
  have hnot : ¬ start.rd_state_ = .RD_HEADER := by decide
  refine ⟨?_, ?_⟩
  · intro p hlf
    rw [hlen]
    apply gets_piece (Or.inl rfl)
    intro hsize
    rw [read_piece_part start p hlf hsize, if_neg hnot]
    show some { start with headers_ := (packed []).append_to_last p, rd_state_ := .RD_MORE } = _
    rw [append_to_last_new]
    rfl
  · intro t _
    have hline : (t ++ [LF]).length = t.length + 1 := by simp
    rw [hlen, ← hline]
    apply gets_piece (Or.inl rfl)
    intro hsize
    rw [hline] at hsize
    rw [read_piece_line start t hsize, if_neg hnot]
    show some { start with
      headers_ := (packed []).append_to_last (strip t), rd_state_ := .RD_HEADER } = _
    rw [append_to_last_new]
    rfl

theorem ready_closed {L : List Bytes} (hne : L ≠ []) : Ready (closed L) L := by
  have hlen : (closed L).headers_.strs_.length = total L := length_packed L
  have hst : (closed L).rd_state_ = .RD_HEADER := rfl
  refine ⟨?_, ?_⟩
  · intro p hlf
    rw [← hlen]
    apply gets_piece (Or.inr rfl)
    intro hsize
    -- behind a complete line an entry is begun
    rw [read_piece_part (closed L) p hlf hsize, if_pos hst]
    show some { closed L with headers_ := (packed L).push_back p, rd_state_ := .RD_MORE } = _
    rw [push_back_packed]
    rfl
  · intro t hstrip
    have hline : (t ++ [LF]).length = t.length + 1 := by simp
    rw [← hlen, ← hline]
    apply gets_piece (Or.inr rfl)
    intro hsize
    rw [hline] at hsize
    rw [read_piece_line (closed L) t hsize, if_pos hst, if_neg (hstrip hne)]
    show some { closed L with
      headers_ := (packed L).push_back (strip t), rd_state_ := .RD_HEADER } = _
    rw [push_back_packed]
    rfl

theorem length_opened (L : List Bytes) (x : Bytes) :
    (opened L x).headers_.strs_.length = total L + (x.length + 1) := by
  show (packed (L ++ [x])).strs_.length = _
  rw [length_packed, total_append, total_cons, total_nil, Nat.add_zero]

/-- The parts of a line behind the first. -/
theorem gets_parts (L : List Bytes) (parts : List Bytes) :
    ∀ x, (∀ q ∈ parts, q ≠ [] ∧ LF ∉ q) →
      Gets (opened L x) parts (opened L (x ++ parts.flatten))
        (total L + (x.length + 1) + parts.flatten.length) := by
  induction parts with
  | nil =>
      intro x _
      rw [List.flatten_nil, List.append_nil]
      exact gets_nil _ _
  | cons q parts ih =>
      intro x hparts
      have hq := (hparts q List.mem_cons_self).2
      have hnot : ¬ (opened L x).rd_state_ = .RD_HEADER := by
        show ¬ Read.RD_MORE = Read.RD_HEADER
        decide
      have hfirst : Gets (opened L x) [q] (opened L (x ++ q))
          ((opened L x).headers_.strs_.length + q.length) := by
        apply gets_piece (Or.inl rfl)
        intro hsize
        rw [read_piece_part (opened L x) q hq hsize, if_neg hnot]
        show some { opened L x with
          headers_ := (packed (L ++ [x])).append_to_last q, rd_state_ := .RD_MORE } = _
        rw [append_to_last_packed]
        rfl
      have hrest := ih (x ++ q) (fun r hr => hparts r (List.mem_cons_of_mem q hr))
      have hsum : total L + ((x ++ q).length + 1) + parts.flatten.length
          = total L + (x.length + 1) + (q :: parts).flatten.length := by
        rw [List.flatten_cons, List.length_append, List.length_append]
        omega
      rw [List.append_assoc, ← List.flatten_cons, hsum] at hrest
      rw [length_opened] at hfirst
      apply hfirst.trans hrest
      rw [List.flatten_cons, List.length_append]
      omega

/-- The end of a line whose beginning is stored. -/
theorem gets_end (L : List Bytes) (x last : Bytes) :
    Gets (opened L x) [last ++ [LF]] (closed (L ++ [x ++ strip last]))
      (total L + (x.length + 1) + (last.length + 1)) := by
  have hnot : ¬ (opened L x).rd_state_ = .RD_HEADER := by
    show ¬ Read.RD_MORE = Read.RD_HEADER
    decide
  have hlen : (last ++ [LF]).length = last.length + 1 := by simp
  rw [← length_opened, ← hlen]
  apply gets_piece (Or.inl rfl)
  intro hsize
  rw [hlen] at hsize
  rw [read_piece_line (opened L x) last hsize, if_neg hnot]
  show some { opened L x with
    headers_ := (packed (L ++ [x])).append_to_last (strip last), rd_state_ := .RD_HEADER } = _
  rw [append_to_last_packed]
  rfl

/-- **The pieces of a line leave one entry**: the CR of its end is taken off when
    it comes with the line feed. -/
theorem gets_line {io : HTTP_Server_IO} {L parts : List Bytes} {last : Bytes} (hio : Ready io L)
    (hparts : ∀ q ∈ parts, q ≠ [] ∧ LF ∉ q)
    (hstrip : L ≠ [] → parts = [] → strip last ≠ []) :
    Gets io (parts ++ [last ++ [LF]]) (closed (L ++ [parts.flatten ++ strip last]))
      (total L + (parts.flatten ++ last).length + 2) := by
  cases parts with
  | nil =>
      have hline := hio.line last (fun hL => hstrip hL rfl)
      exact hline.larger (by rw [List.flatten_nil, List.nil_append]; omega)
  | cons p parts =>
      have hfirst := hio.part p (hparts p List.mem_cons_self).2
      have hmid := gets_parts L parts p (fun q hq => hparts q (List.mem_cons_of_mem p hq))
      have hend := gets_end L (p ++ parts.flatten) last
      have hboth := hfirst.trans hmid (by omega)
      rw [List.length_append] at hend
      have hall := hboth.trans hend (by omega)
      rw [List.flatten_cons, List.length_append, List.length_append]
      exact hall.larger (by omega)

/-! ## §6. Cuts. -/

/-- Taking the line end off the last piece takes it off the line, unless the piece
    is the line feed alone and the CR came before it. -/
theorem strip_append_iff (x last : Bytes) :
    x ++ strip last = strip (x ++ last) ↔ ¬ (last = [] ∧ [CR] <:+ x) := by
  -- with bytes in front of the line feed the CR is among them
  rcases List.eq_nil_or_concat last with rfl | ⟨u, c, rfl⟩
  · rw [List.append_nil]
    show x ++ [] = strip x ↔ _
    rw [List.append_nil, List.singleton_suffix_iff_getLast?_eq_some]
    unfold strip
    by_cases hcr : x.getLast? = some CR
    · rw [if_pos hcr]
      refine ⟨fun h => absurd (congrArg List.length h) ?_, fun h => absurd ⟨rfl, hcr⟩ h⟩
      have hpos := List.length_pos_of_mem (List.mem_of_getLast? hcr)
      rw [List.length_dropLast]
      omega
    · rw [if_neg hcr]
      exact ⟨fun _ h => hcr h.2, fun _ => rfl⟩
  · refine ⟨fun _ h => absurd h.1 (by simp), fun _ => ?_⟩
    have hlast : (x ++ u.concat c).getLast? = (u.concat c).getLast? :=
      List.getLast?_append_of_ne_nil x (by simp)
    unfold strip
    rw [hlast]
    split
    · rw [List.dropLast_append_of_ne_nil (by simp)]
    · rfl

/-- What stands at the end of two texts stands at the end of the second, or the
    second is empty. -/
theorem cr_suffix_append {x y : Bytes} (h : [CR] <:+ x ++ y) (hne : y ≠ []) : [CR] <:+ y := by
  rw [List.singleton_suffix_iff_getLast?_eq_some] at h ⊢
  rwa [List.getLast?_append_of_ne_nil x hne] at h

/-- **The cuts in a line and behind it.** -/
theorem whole_ends_line {parts ps : List Bytes} {last : Bytes}
    (hparts : ∀ q ∈ parts, q ≠ [] ∧ LF ∉ q) (hlast : LF ∉ last) :
    Whole_Ends (parts ++ (last ++ [LF]) :: ps)
      ↔ ¬ (last = [] ∧ [CR] <:+ parts.flatten) ∧ Whole_Ends ps := by
  constructor
  · intro h
    refine ⟨?_, ?_⟩
    · intro hcut
      obtain ⟨rfl, hcr⟩ := hcut
      exact h parts _ rfl ⟨hcr, by simp⟩
    · intro before after hsplit hcut
      apply h (parts ++ (last ++ [LF]) :: before) after (by rw [hsplit]; simp)
      refine ⟨?_, hcut.2⟩
      rw [List.flatten_append, List.flatten_cons, ← List.append_assoc]
      exact List.suffix_append_of_suffix hcut.1
  · intro h before after hsplit hcut
    -- a cut that leaves nothing of the line on its left but its parts
    have hfirst : before = parts → after = (last ++ [LF]) :: ps → False := by
      intro hb ha
      subst hb ha
      apply h.1 ⟨?_, hcut.1⟩
      have hlf := hcut.2
      rw [List.flatten_cons, List.append_assoc] at hlf
      cases last with
      | nil => rfl
      | cons c last =>
          rw [List.cons_append, List.singleton_prefix_cons_iff] at hlf
          exact absurd (hlf ▸ List.mem_cons_self) hlast
    rcases List.append_eq_append_iff.mp hsplit with ⟨m, hb, ha⟩ | ⟨m, hp, ha⟩
    · cases m with
      | nil =>
          rw [List.append_nil] at hb
          exact hfirst hb ha.symm
      | cons p m =>
          obtain ⟨rfl, hm⟩ := List.cons.inj ha
          by_cases hnil : m.flatten = []
          · -- right behind the line
            have hcr := hcut.1
            rw [hb, List.flatten_append, List.flatten_cons, hnil, List.append_nil,
              ← List.append_assoc] at hcr
            have heq := cr_suffix_append hcr (by simp)
            exact absurd heq (by decide)
          · apply h.2 m after hm
            refine ⟨?_, hcut.2⟩
            have hcr := hcut.1
            rw [hb, List.flatten_append, List.flatten_cons, ← List.append_assoc] at hcr
            exact cr_suffix_append hcr hnil
    · cases m with
      | nil =>
          rw [List.append_nil] at hp
          exact hfirst hp.symm ha
      | cons q m =>
          -- the cut is in front of one of the parts
          obtain ⟨hne, hlf⟩ := hparts q (by rw [hp]; simp)
          have hq := hcut.2
          rw [ha, List.cons_append, List.flatten_cons] at hq
          cases q with
          | nil => exact absurd rfl hne
          | cons c q =>
              rw [List.cons_append, List.singleton_prefix_cons_iff] at hq
              exact absurd (hq ▸ List.mem_cons_self) hlf

/-- The cuts between chunks are the cuts between their pieces. -/
theorem whole_ends_pieces (chunks : List Bytes) :
    Whole_Ends (chunks.map (pieces LF)).flatten ↔ Whole_Ends chunks := by
  constructor
  · intro h before after hsplit hcut
    rw [← pieces_all_flatten LF before, ← pieces_all_flatten LF after] at hcut
    exact h _ _ (by rw [hsplit, List.map_append, List.flatten_append]) hcut
  · intro h a b hsplit hcut
    have hcr : CR ≠ LF := by decide
    obtain ⟨before, after, hchunks, hbefore, hafter⟩ := pieces_cut hcr hsplit hcut.1
    rw [← hbefore, ← hafter] at hcut
    exact h before after hchunks hcut

/-! ## §7. All lines. -/

/-- **One line of the stream**: the entry it leaves is its text when its end is not
    cut. -/
theorem gets_first_line {io : HTTP_Server_IO} {L : List Bytes} (hio : Ready io L) {t rest : Bytes}
    {ps : List Bytes} (ht : LF ∉ t) (htext : L ≠ [] → strip t ≠ [])
    (hps : ∀ p ∈ ps, IsPiece LF p) (hflat : ps.flatten = t ++ LF :: rest) :
    ∃ qs ps' e, ps = qs ++ ps' ∧ ps'.flatten = rest ∧
      Gets io qs (closed (L ++ [e])) (total L + t.length + 2) ∧ e.length ≤ t.length ∧
      (Whole_Ends ps ↔ e = strip t ∧ Whole_Ends ps') := by
  obtain ⟨parts, last, ps', rfl, hparts, hlast, rfl, hrest⟩ := piece_line ps t ht hps hflat
  have hwhole : Whole_Ends (parts ++ (last ++ [LF]) :: ps') ↔ _ := whole_ends_line hparts hlast
  have hstrip := strip_length last
  refine ⟨parts ++ [last ++ [LF]], ps', parts.flatten ++ strip last, by simp, hrest, ?_, ?_, ?_⟩
  · apply gets_line hio hparts
    intro hL hnil
    rw [hnil, List.flatten_nil, List.nil_append] at htext
    exact htext hL
  · rw [List.length_append, List.length_append]
    omega
  · rw [hwhole, strip_append_iff]

/-- **All headers.** -/
theorem takes_headers (ts : List Bytes) :
    ∀ (L : List Bytes) (rest : Bytes) (ps : List Bytes), L ≠ [] →
      (∀ t ∈ ts, LF ∉ t ∧ strip t ≠ []) → (∀ p ∈ ps, IsPiece LF p) →
      ps.flatten = (ts.map (· ++ [LF])).flatten ++ rest → rest ≠ [] →
      total L + ps.flatten.length ≤ HEADER_MAX →
      ∃ qs ps' es, ps = qs ++ ps' ∧ ps'.flatten = rest ∧
        reader.Takes (pieces LF) (closed L) qs (closed (L ++ es)) ∧
        total (L ++ es) + rest.length ≤ HEADER_MAX ∧
        (Whole_Ends ps ↔ es = ts.map strip ∧ Whole_Ends ps') := by
  induction ts with
  | nil =>
      intro L rest ps _ _ _ hflat _ hsize
      have hrest : ps.flatten = rest := hflat
      refine ⟨[], ps, [], rfl, hrest, ?_, ?_, ?_⟩
      · rw [List.append_nil]
        exact reader.takes_nil _ _
      · rw [List.append_nil, ← hrest]
        exact hsize
      · exact ⟨fun h => ⟨rfl, h⟩, fun h => h.2⟩
  | cons t ts ih =>
      intro L rest ps hne hts hps hflat hrest hsize
      obtain ⟨ht, hstrip⟩ := hts t List.mem_cons_self
      have hline : ps.flatten = t ++ LF :: ((ts.map (· ++ [LF])).flatten ++ rest) := by
        rw [hflat, List.map_cons, List.flatten_cons]
        simp
      have hpos := List.length_pos_iff.mpr hrest
      have hlen := congrArg List.length hline
      rw [List.length_append, List.length_cons, List.length_append] at hlen
      obtain ⟨qs, ps₁, e, rfl, hps₁, hgets, he, hwhole⟩ :=
        gets_first_line (ready_closed hne) ht (fun _ => hstrip) hps hline
      have htakes := hgets.takes (by omega)
      have hbound : total (L ++ [e]) + ps₁.flatten.length ≤ HEADER_MAX := by
        rw [total_append, total_cons, total_nil, hps₁, List.length_append]
        omega
      obtain ⟨qs', ps', es, rfl, hps', htakes', hbound', hwhole'⟩ :=
        ih (L ++ [e]) rest ps₁ (by simp) (fun u hu => hts u (List.mem_cons_of_mem t hu))
          (fun p hp => hps p (List.mem_append_right qs hp)) hps₁ hrest hbound
      rw [List.append_assoc] at htakes' hbound'
      refine ⟨qs ++ qs', ps', e :: es, by rw [List.append_assoc], hps', htakes.trans htakes',
        hbound', ?_⟩
      rw [hwhole, hwhole', List.map_cons, List.cons.injEq, and_assoc]

/-- A header has a text. -/
theorem strip_ne_nil {t : Bytes} (hne : t ≠ []) (hcr : t ≠ [CR]) : strip t ≠ [] := by
  unfold strip
  split
  · rename_i hlast
    obtain ⟨u, rfl⟩ := List.getLast?_eq_some_iff.mp hlast
    rw [List.dropLast_concat]
    intro hnil
    exact hcr (by rw [hnil]; rfl)
  · exact hne

/-! ## §8. The empty line, and the whole head. -/

/-- The empty line in one piece. -/
theorem read_blank {L : List Bytes} {blank : Bytes} (h : blank = [] ∨ blank = [CR])
    (hsize : total L + (blank.length + 1) ≤ HEADER_MAX) :
    (closed L).read_piece (blank ++ [LF]) = (closed L).header_completed := by
  have hlen : (closed L).headers_.strs_.length = total L := length_packed L
  have hst : (closed L).rd_state_ = .RD_HEADER := rfl
  have hnil : strip blank = [] := by
    rcases h with rfl | rfl
    · rfl
    · rfl
  rw [read_piece_line (closed L) blank (by rw [hlen]; exact hsize), if_pos hst, if_pos hnil]

/-- The empty line cut in two: it is stored as a header, or is one byte too much. -/
theorem takes_cut_blank {L : List Bytes} (hne : L ≠ []) (hsize : total L + 2 ≤ HEADER_MAX) :
    ∃ io', reader.Takes (pieces LF) (closed L) [[CR], [LF]] io' ∧
      io'.rd_state_ ≠ .RD_OK ∧ io'.rd_state_ ≠ .RD_DATA := by
  have hcr : LF ∉ [CR] := by decide
  have hfirst := ((ready_closed hne).part [CR] hcr).takes
    (by simp only [List.length_singleton]; omega)
  by_cases hroom : total L + 3 ≤ HEADER_MAX
  · have hend := (gets_end L [CR] []).takes
      (by simp only [List.length_singleton, List.length_nil]; omega)
    exact ⟨_, hfirst.trans hend, by simp [closed], by simp [closed]⟩
  · refine ⟨{ opened L [CR] with rd_state_ := .RD_ERR_HEADER_OVERSIZE }, ?_, by simp, by simp⟩
    refine hfirst.trans (takes_piece (Or.inl rfl) ?_)
    unfold read_piece
    rw [length_opened]
    simp only [List.length_singleton]
    rw [if_pos (by omega)]

/-- The empty line comes in one piece or in two. -/
theorem blank_pieces {blank : Bytes} (h : blank = [] ∨ blank = [CR]) {ps : List Bytes}
    (hps : ∀ p ∈ ps, IsPiece LF p) (hflat : ps.flatten = blank ++ [LF]) :
    (ps = [blank ++ [LF]] ∧ Whole_Ends ps) ∨ (ps = [[CR], [LF]] ∧ ¬ Whole_Ends ps) := by
  have hlf : LF ∉ blank := by
    rcases h with rfl | rfl
    · simp
    · decide
  obtain ⟨parts, last, ps', rfl, hparts, hlast, hblank, hrest⟩ := piece_line ps blank hlf hps hflat
  have hwhole : Whole_Ends (parts ++ (last ++ [LF]) :: ps') ↔ _ := whole_ends_line hparts hlast
  have hend : ps' = [] := by
    apply List.eq_nil_iff_forall_not_mem.mpr
    intro p hp
    exact (hps p (List.mem_append_right parts (List.mem_cons_of_mem _ hp))).1
      (List.flatten_eq_nil_iff.mp hrest p hp)
  subst hend
  have hnone : Whole_Ends [] := by
    intro before after hsplit hcut
    obtain ⟨rfl, rfl⟩ := List.append_eq_nil_iff.mp hsplit.symm
    exact absurd hcut.2 (by simp)
  cases parts with
  | nil =>
      rw [List.flatten_nil, List.nil_append] at hblank
      subst hblank
      refine Or.inl ⟨rfl, hwhole.mpr ⟨fun hcut => ?_, hnone⟩⟩
      exact absurd hcut.2 (by simp)
  | cons p parts =>
      -- the first part is the CR, and nothing is left for the others
      obtain ⟨hp, _⟩ := hparts p List.mem_cons_self
      have hpos := List.length_pos_iff.mpr hp
      have hlen := congrArg List.length hblank
      rw [List.flatten_cons, List.length_append, List.length_append] at hlen
      rcases h with rfl | rfl
      · rw [List.length_nil] at hlen
        omega
      · rw [List.length_singleton] at hlen
        obtain rfl : last = [] := List.length_eq_zero_iff.mp (by omega)
        have hparts' : parts.flatten = [] := List.length_eq_zero_iff.mp (by omega)
        have hmore : parts = [] := by
          apply List.eq_nil_iff_forall_not_mem.mpr
          intro q hq
          exact (hparts q (List.mem_cons_of_mem p hq)).1
            (List.flatten_eq_nil_iff.mp hparts' q hq)
        subst hmore
        rw [List.flatten_singleton, List.append_nil] at hblank
        subst hblank
        exact Or.inr ⟨rfl, fun hw => (hwhole.mp hw).1 ⟨rfl, by simp⟩⟩

/-- **The lines of the head, wherever they are cut.** -/
theorem takes_head (h : Request_Head) (hlen : h.bytes.length ≤ HEADER_MAX) {ps : List Bytes}
    (hps : ∀ p ∈ ps, IsPiece LF p) (hflat : ps.flatten = h.bytes) :
    ∃ qs ps' L, ps = qs ++ ps' ∧ ps'.flatten = h.blank ++ [LF] ∧ L ≠ [] ∧
      reader.Takes (pieces LF) start qs (closed L) ∧ total L + (h.blank.length + 1) ≤ HEADER_MAX ∧
      (Whole_Ends ps ↔ L = h.entries ∧ Whole_Ends ps') := by
  have hbytes := congrArg List.length hflat
  rw [← hbytes] at hlen
  unfold Request_Head.bytes at hflat hbytes
  rw [List.length_append, List.length_cons, List.length_append, List.length_append,
    List.length_singleton] at hbytes
  obtain ⟨qs, ps₁, e, rfl, hps₁, hgets, he, hwhole⟩ :=
    gets_first_line ready_start h.first_lf (fun hnil => absurd rfl hnil) hps hflat
  have htakes := hgets.takes (by rw [total_nil]; omega)
  have hbound : total [e] + ps₁.flatten.length ≤ HEADER_MAX := by
    rw [total_cons, total_nil, hps₁, List.length_append, List.length_append, List.length_singleton]
    omega
  have hts : ∀ t ∈ h.headers, LF ∉ t ∧ strip t ≠ [] := fun t ht =>
    ⟨h.headers_lf t ht, strip_ne_nil (h.headers_text t ht).1 (h.headers_text t ht).2⟩
  obtain ⟨qs', ps', es, rfl, hps', htakes', hbound', hwhole'⟩ :=
    takes_headers h.headers [e] _ ps₁ (by simp) hts
      (fun p hp => hps p (List.mem_append_right qs hp)) hps₁ (by simp) hbound
  rw [List.length_append, List.length_singleton] at hbound'
  refine ⟨qs ++ qs', ps', [e] ++ es, by rw [List.append_assoc], hps', by simp,
    htakes.trans htakes', hbound', ?_⟩
  rw [hwhole, hwhole', Request_Head.entries, List.singleton_append, List.cons.injEq, and_assoc]

/-- What the loop comes to: without a cut in a line end the head is completed with
    its entries, and with one it has other entries or is not completed. -/
theorem runs_head (h : Request_Head) (hlen : h.bytes.length ≤ HEADER_MAX) (chunks : List Bytes)
    (hne : ∀ chunk ∈ chunks, chunk ≠ []) (hchunks : chunks.flatten = h.bytes) :
    (Whole_Ends chunks → ∀ r, reader.Runs ⟨start, [], chunks⟩ r
      ↔ r = (closed h.entries).header_completed.map fun io => ⟨io, [], []⟩) ∧
    (¬ Whole_Ends chunks → ∀ c, reader.Runs ⟨start, [], chunks⟩ (some c) →
      c.io.headers_ = packed h.entries → c.io.rd_state_ ≠ .RD_OK ∧ c.io.rd_state_ ≠ .RD_DATA) := by
  have hps : ∀ p ∈ (chunks.map (pieces LF)).flatten, IsPiece LF p := by
    intro p hp
    obtain ⟨_, hl, hpl⟩ := List.mem_flatten.mp hp
    obtain ⟨chunk, _, rfl⟩ := List.mem_map.mp hl
    exact pieces_isPiece LF chunk p hpl
  have hflat : (chunks.map (pieces LF)).flatten.flatten = h.bytes := by
    rw [pieces_all_flatten, hchunks]
  have hnil : ∀ chunk : Bytes, pieces LF chunk = [] → chunk = [] := by
    intro chunk hc
    have hback := pieces_flatten LF chunk
    rwa [hc, List.flatten_nil, eq_comm] at hback
  obtain ⟨qs, ps', L, hsplit, hps', hL, htakes, hsize, hwhole⟩ := takes_head h hlen hps hflat
  have hd : Reader.Delivers (pieces LF) [] chunks (qs ++ ps') := ⟨hsplit, hne⟩
  rw [whole_ends_pieces] at hwhole
  rcases blank_pieces h.blank_text (fun p hp => hps p (by rw [hsplit]; exact List.mem_append_right qs hp))
    hps' with ⟨hblank, hends⟩ | ⟨hblank, hcut⟩
  · -- the empty line is seen
    have hruns : ∀ r, reader.Runs ⟨start, [], chunks⟩ r
        ↔ r = (closed L).header_completed.map fun io => ⟨io, [], []⟩ := by
      intro r
      rw [hblank] at hd
      have hread := read_blank h.blank_text hsize
      cases hdone : (closed L).header_completed with
      | none =>
          rw [hdone] at hread
          exact (htakes.fails (fails_piece (Or.inr rfl) hread)).runs reader hd r
      | some io' =>
          rw [hdone] at hread
          exact (htakes.trans (takes_piece (Or.inr rfl) hread)).runs reader hnil hd r
    refine ⟨fun hw => ?_, fun hw c hc hheaders => ?_⟩
    · rw [← (hwhole.mp hw).1]
      exact hruns
    · obtain ⟨io', hdone, rfl⟩ := Option.map_eq_some_iff.mp ((hruns _).mp hc).symm
      have hkept := (header_completed_frame hL hdone).1
      exact absurd (hwhole.mpr ⟨packed_inj (hkept.symm.trans hheaders), hends⟩) hw
  · -- it is not
    refine ⟨fun hw => absurd (hwhole.mp hw).2 hcut, fun _ c hc _ => ?_⟩
    have hcr : h.blank.length = 1 := by
      have hbytes := congrArg List.length hps'
      rw [hblank, List.length_append] at hbytes
      exact (Nat.add_right_cancel hbytes).symm
    obtain ⟨io', htakes', hok, hdata⟩ := takes_cut_blank hL (by omega)
    rw [hblank] at hd
    obtain rfl := Option.some.inj (((htakes.trans htakes').runs reader hnil hd _).mp hc)
    exact ⟨hok, hdata⟩

/-! ## §9. Which cuttings change nothing. -/

theorem whole_ends_one (chunk : Bytes) : Whole_Ends [chunk] := by
  intro before after hsplit hcut
  cases before with
  | nil => exact absurd hcut.1 (by simp)
  | cons b before =>
      rw [List.cons_append, List.cons.injEq] at hsplit
      obtain ⟨_, rfl⟩ := List.append_eq_nil_iff.mp hsplit.2.symm
      exact absurd hcut.2 (by simp)

/-- The head in one chunk. -/
theorem runs_one (h : Request_Head) (hlen : h.bytes.length ≤ HEADER_MAX)
    (r : Option (Conn HTTP_Server_IO Byte)) :
    reader.Runs ⟨start, [], [h.bytes]⟩ r
      ↔ r = (closed h.entries).header_completed.map fun io => ⟨io, [], []⟩ := by
  have hne : ∀ chunk ∈ [h.bytes], chunk ≠ [] := by
    intro chunk hc
    rw [List.mem_singleton.mp hc]
    simp [Request_Head.bytes]
  exact (runs_head h hlen [h.bytes] hne (by rw [List.flatten_singleton])).1 (whole_ends_one _) r

/-- A cutting that changes nothing leaves the line ends whole. -/
theorem whole_of_same {io : HTTP_Server_IO} {h : Request_Head}
    (hlen : h.bytes.length ≤ HEADER_MAX) {chunks : List Bytes}
    (hne : ∀ chunk ∈ chunks, chunk ≠ []) (hchunks : chunks.flatten = h.bytes)
    (hsame : Same io h.bytes chunks) : Whole_Ends chunks := by
  obtain ⟨c, c', hc, hc', hheaders, _, _, hstate⟩ := hsame
  obtain ⟨io', hdone, rfl⟩ := Option.map_eq_some_iff.mp ((runs_one h hlen _).mp hc').symm
  obtain ⟨hkept, hend⟩ := header_completed_frame (List.cons_ne_nil _ _) hdone
  by_contra hcut
  obtain ⟨hok, hdata⟩ := (runs_head h hlen chunks hne hchunks).2 hcut c hc (hheaders.trans hkept)
  rw [hstate] at hok hdata
  exact hend.elim hok hdata

theorem completed_none_iff (h : Request_Head) :
    (closed h.entries).header_completed = none ↔ ∃ t ∈ h.headers, Undefined_Length (strip t) := by
  unfold Request_Head.entries
  rw [header_completed_none_iff]
  constructor
  · intro hbad
    obtain ⟨_, hmem, hbad⟩ := hbad
    obtain ⟨t, ht, rfl⟩ := List.mem_map.mp hmem
    exact ⟨t, ht, hbad⟩
  · intro hbad
    obtain ⟨t, ht, hbad⟩ := hbad
    exact ⟨strip t, List.mem_map_of_mem ht, hbad⟩

/-- **The head of a request.**  Cut in any way it leaves what it leaves in one
    chunk if and only if no cut separates a CR from its line feed, and every
    Content-Length in it is an `int`. -/
theorem segmentation_iff (io : HTTP_Server_IO) (h : Request_Head)
    (hlen : h.bytes.length ≤ HEADER_MAX) (chunks : List Bytes)
    (hne : ∀ chunk ∈ chunks, chunk ≠ []) (hchunks : chunks.flatten = h.bytes) :
    Same io h.bytes chunks
      ↔ Whole_Ends chunks ∧ ∀ t ∈ h.headers, ¬ Undefined_Length (strip t) := by
  constructor
  · intro hsame
    refine ⟨whole_of_same hlen hne hchunks hsame, ?_⟩
    obtain ⟨_, c', _, hc', _⟩ := hsame
    obtain ⟨io', hdone, _⟩ := Option.map_eq_some_iff.mp ((runs_one h hlen _).mp hc').symm
    intro t ht hbad
    rw [(completed_none_iff h).mpr ⟨t, ht, hbad⟩] at hdone
    exact absurd hdone (by simp)
  · intro hall
    obtain ⟨hw, hdefined⟩ := hall
    have hruns := (runs_head h hlen chunks hne hchunks).1 hw
    cases hdone : (closed h.entries).header_completed with
    | none =>
        obtain ⟨t, ht, hbad⟩ := (completed_none_iff h).mp hdone
        exact absurd hbad (hdefined t ht)
    | some io' =>
        rw [hdone] at hruns
        have hone := (runs_one h hlen (some ⟨io', [], []⟩)).mpr (by rw [hdone]; rfl)
        exact ⟨⟨io', [], []⟩, ⟨io', [], []⟩, (hruns _).mpr rfl, hone, rfl, rfl, rfl, rfl⟩

/-- A request line, two headers and the empty line. -/
def head_of_post : Request_Head where
  first := lit "POST /\r"
  headers := [lit "Content-Length: 5\r", lit "Connection: keep-alive\r"]
  blank := [CR]
  first_lf := by decide
  headers_lf := by decide
  headers_text := by decide
  blank_text := Or.inr rfl

/-- Cut in the request line, in front of a CR, behind a line feed and in a value. -/
theorem segmentation_post :
    Same ⟨.RD_OK, 0, 0, .new⟩ head_of_post.bytes
      [lit "PO", lit "ST /", lit "\r\n", lit "Content-Length: 5\r\nConnection: keep",
        lit "-alive\r\n", lit "\r\n"] :=
  (segmentation_iff ⟨.RD_OK, 0, 0, .new⟩ head_of_post (by decide) _ (by decide)
    (by decide)).mpr ⟨by decide, by decide⟩

/-- Cut in the empty line: the head is never completed. -/
theorem blank_line_cut :
    ¬ Same ⟨.RD_OK, 0, 0, .new⟩ head_of_post.bytes
      [lit "POST /\r\nContent-Length: 5\r\nConnection: keep-alive\r\n\r", lit "\n"] := by
  intro hsame
  have hwhole := whole_of_same (by decide) (by decide) (by decide) hsame
  exact absurd hwhole (by decide)

end HTTP_Server_IO

end Aos
