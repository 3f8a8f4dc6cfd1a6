/-
  Aos.Mime.HeaderOnly — importing a header without its content.

  With the flag `HEADER` the parser has to see the first line of the content to know
  that the header has ended.  `import_file_handle` does not count that line if it is
  a whole one, and counts it if the file ends in it.  `import_data` parses it, and
  parses it once more behind its loop.

  Main results:
    • `header_import_offset` — when the value returned is where the content begins;
    • `header_import_iff` — the header is always right, and when there is nothing else.
-/
import Aos.Mime.Agree
import Aos.Mime.Size

namespace Aos

open Lib.Lines MIME_Entity

/-! ## §1. Where the content begins. -/

section Offset

variable (delimiter : Byte) (x : Bytes)

/-- The fields and the blank lines behind them. -/
def header_bytes : Bytes :=
  (field_lines (all_lines delimiter x) ++ blank_lines (all_lines delimiter x)).flatten

/-- What comes then. -/
def content_bytes : Bytes := (content_lines (all_lines delimiter x)).flatten

/-- The first line of the content ends. -/
def terminated : Prop := content_lines (lines delimiter x) ≠ []

theorem header_content : header_bytes delimiter x ++ content_bytes delimiter x = x := by
  unfold header_bytes content_bytes
  rw [← List.flatten_append, ← lines_split, all_lines_flatten]

/-- Lines behind a content line are content. -/
theorem runs_append (ls ms : List Bytes) (h : content_lines ls ≠ []) :
    field_lines (ls ++ ms) = field_lines ls ∧ blank_lines (ls ++ ms) = blank_lines ls ∧
      content_lines (ls ++ ms) = content_lines ls ++ ms := by
  obtain ⟨l, rest, hc⟩ := List.exists_cons_of_ne_nil h
  obtain ⟨hl, hb⟩ := content_lines_cons ls l rest hc
  obtain ⟨b, bs, hbs⟩ := List.exists_cons_of_ne_nil hb
  have hblank := blank_lines_blank ls
  have hsplit : ls ++ ms = field_lines ls ++ (blank_lines ls ++ (content_lines ls ++ ms)) := by
    rw [← List.append_assoc, ← List.append_assoc, ← lines_split]
  have hfields : ∀ a ∈ field_lines ls, (! is_blank a) = true := by
    intro a ha
    rw [field_lines_not_blank ls a ha]
    rfl
  have hfirst : (! is_blank b) = false := by
    rw [hblank b (by rw [hbs]; exact List.mem_cons_self)]
    rfl
  -- the fields end at a blank line, and the blank lines at a content line
  have hdrop : (ls ++ ms).dropWhile (fun a => ! is_blank a)
      = blank_lines ls ++ (content_lines ls ++ ms) := by
    rw [hsplit, List.dropWhile_append_of_pos hfields, hbs, List.cons_append,
      List.dropWhile_cons_of_neg (by rw [hfirst]; exact Bool.false_ne_true)]
  refine ⟨?_, ?_, ?_⟩
  · show (ls ++ ms).takeWhile _ = _
    rw [hsplit, List.takeWhile_append_of_pos hfields, hbs, List.cons_append,
      List.takeWhile_cons_of_neg (by rw [hfirst]; exact Bool.false_ne_true), List.append_nil]
  · show ((ls ++ ms).dropWhile _).takeWhile is_blank = _
    rw [hdrop, List.takeWhile_append_of_pos hblank, hc, List.cons_append,
      List.takeWhile_cons_of_neg (by rw [hl]; exact Bool.false_ne_true), List.append_nil]
  · show ((ls ++ ms).dropWhile _).dropWhile is_blank = _
    rw [hdrop, List.dropWhile_append_of_pos hblank, hc, List.cons_append,
      List.dropWhile_cons_of_neg (by rw [hl]; exact Bool.false_ne_true)]

/-- **A header with content behind it** ends with a whole line. -/
theorem header_bytes_ends (h : content_bytes delimiter x ≠ []) :
    (header_bytes delimiter x).getLast? = some delimiter := by
  have hne : content_lines (all_lines delimiter x) ≠ [] := by
    intro hnil
    unfold content_bytes at h
    rw [hnil] at h
    exact h rfl
  obtain ⟨l, rest, hc⟩ := List.exists_cons_of_ne_nil hne
  obtain ⟨_, hblanks⟩ := content_lines_cons _ l rest hc
  -- the lines in front of a content line are not the last one
  have hwhole := all_lines_init delimiter x _ _ (lines_split (all_lines delimiter x)) hne
  obtain ⟨init, last, hlast⟩ := (List.eq_nil_or_concat' _).resolve_left
    (List.append_ne_nil_of_right_ne_nil (field_lines (all_lines delimiter x)) hblanks)
  have hline := hwhole last (by rw [hlast]; exact List.mem_append_right _ List.mem_cons_self)
  unfold header_bytes
  rw [hlast, List.flatten_append, List.flatten_singleton,
    List.getLast?_append_of_ne_nil _ hline.ne_nil]
  exact hline.getLast?

/-- A first content line that ends is a line of the text. -/
theorem terminated_runs (h : terminated delimiter x) :
    field_lines (all_lines delimiter x) = field_lines (lines delimiter x) ∧
      blank_lines (all_lines delimiter x) = blank_lines (lines delimiter x) ∧
      content_bytes delimiter x ≠ [] := by
  obtain ⟨hfields, hblanks, hcontent⟩ :=
    runs_append (lines delimiter x) [(cut delimiter [] x).2] h
  refine ⟨hfields, hblanks, ?_⟩
  obtain ⟨l, rest, hc⟩ := List.exists_cons_of_ne_nil h
  have hmem : l ∈ lines delimiter x := by
    rw [lines_split (lines delimiter x), hc]
    exact List.mem_append_right _ List.mem_cons_self
  have hline : IsLine delimiter l := cut_isLine delimiter x [] List.not_mem_nil l hmem
  unfold content_bytes
  change content_lines (all_lines delimiter x) = _ at hcontent
  rw [hcontent, hc, List.cons_append, List.flatten_cons]
  exact List.append_ne_nil_of_left_ne_nil hline.ne_nil _

end Offset

/-! ## §2. The value returned. -/

/-- The lines that are counted. -/
def counted (delimiter : Byte) (x : Bytes) : List Bytes :=
  if content_lines (lines delimiter x) = [] then all_lines delimiter x
  else field_lines (lines delimiter x) ++ blank_lines (lines delimiter x)

theorem import_from_value (buf : Bytes) (bufs : List Bytes) (hbufs : ∀ b ∈ buf :: bufs, b ≠ [])
    (no_hidden_header : Bool) :
    (import_from (buf :: bufs) .HEADER no_hidden_header).2
      = count_lines (counted (get_line_delimiter buf) (buf :: bufs).flatten) := by
  rw [import_buffers_eq .HEADER no_hidden_header buf bufs hbufs]
  generalize (buf :: bufs).flatten = x
  generalize get_line_delimiter buf = delimiter
  unfold counted finish read_stream
  dsimp only
  by_cases hc : content_lines (lines delimiter x) = []
  · obtain ⟨hp, _⟩ := feed_in_header .HEADER no_hidden_header (lines delimiter x) new 0
      (header_not_done no_hidden_header (with_body .HEADER) _ hc)
    have hcount := feed_count .HEADER no_hidden_header _ _ _ hp
    unfold lines at hp hcount
    rw [if_pos hc, if_pos hp, if_pos hp]
    dsimp only
    rw [hcount, Int.zero_add]
    unfold count_lines all_lines
    rw [List.map_append, List.sum_append, List.map_singleton, List.sum_singleton]
  · obtain ⟨line, rest, hline⟩ := List.exists_cons_of_ne_nil hc
    obtain ⟨hp, _, _, hcount⟩ := feed_stops no_hidden_header _ line rest hline
    unfold lines at hp hcount
    have hstopped : ¬ (feed .HEADER no_hidden_header new 0 (cut delimiter [] x).1).parsing = true := by
      rw [hp]
      exact Bool.false_ne_true
    rw [if_neg hc, if_neg hstopped, if_neg hstopped]
    exact hcount

/-- How many bytes the lines lose when their lengths become `int`s: multiples of 2 ^ 32. -/
def lost (ls : List Bytes) : Nat :=
  (ls.map (fun l => 2 ^ 32 * ((l.length + 2 ^ 31) / 2 ^ 32))).sum

theorem toInt_length (n : Nat) : toInt n + (2 ^ 32 * ((n + 2 ^ 31) / 2 ^ 32) : Nat) = n := by
  unfold toInt
  rw [Int.bmod_def]
  split <;> omega

theorem count_lines_lost (ls : List Bytes) : count_lines ls + lost ls = ls.flatten.length := by
  induction ls with
  | nil => rfl
  | cons l ls ih =>
      have hl := toInt_length l.length
      unfold count_lines lost at ih ⊢
      rw [List.map_cons, List.sum_cons, List.map_cons, List.sum_cons, List.flatten_cons,
        List.length_append]
      omega

/-- Shorter lines lose nothing. -/
theorem lost_short (ls : List Bytes) (h : ∀ l ∈ ls, l.length < 2 ^ 31) : lost ls = 0 := by
  induction ls with
  | nil => rfl
  | cons l ls ih =>
      have hl := h l List.mem_cons_self
      have hrest := ih (fun m hm => h m (List.mem_cons_of_mem l hm))
      unfold lost at hrest ⊢
      rw [List.map_cons, List.sum_cons, hrest]
      omega

/-! ## §3. Where it is the offset of the content. -/

/-- The offset of the first content line, and the length of the text if there is none. -/
def content_offset (x : Bytes) : Nat := (header_bytes (get_line_delimiter x) x).length

theorem counted_flatten (delimiter : Byte) (x : Bytes) :
    (terminated delimiter x → (counted delimiter x).flatten = header_bytes delimiter x) ∧
    (¬ terminated delimiter x → (counted delimiter x).flatten = x) := by
  unfold counted
  constructor
  · intro h
    obtain ⟨hfields, hblanks, _⟩ := terminated_runs delimiter x h
    unfold header_bytes
    rw [if_neg h, hfields, hblanks]
  · intro h
    rw [if_pos (not_not.mp h), all_lines_flatten]

/-- Two delimiters that have a content line do not have the same header. -/
theorem header_bytes_inj {c d : Byte} {x : Bytes} (hc : content_bytes c x ≠ [])
    (h : (header_bytes c x).length = (header_bytes d x).length) : c = d := by
  have hsame : header_bytes c x = header_bytes d x := by
    have hsplit : header_bytes c x ++ content_bytes c x = header_bytes d x ++ content_bytes d x := by
      rw [header_content, header_content]
    exact (List.append_inj hsplit h).1
  have hd : content_bytes d x ≠ [] := by
    intro hnil
    have hsplit := header_content d x
    rw [hnil, List.append_nil, ← hsame] at hsplit
    have hboth := header_content c x
    rw [hsplit] at hboth
    exact hc (List.append_right_eq_self.mp hboth)
  have hends := header_bytes_ends c x hc
  rw [hsame, header_bytes_ends d x hd] at hends
  exact (Option.some.inj hends).symm

/-- **Where the bytes that are counted are those of the header.** -/
theorem counted_iff_offset (delimiter : Byte) (x : Bytes) :
    (counted delimiter x).flatten.length = content_offset x ↔
      delimiter = get_line_delimiter x ∧ terminated delimiter x ∨
      ¬ terminated delimiter x ∧ content_bytes (get_line_delimiter x) x = [] := by
  obtain ⟨hyes, hno⟩ := counted_flatten delimiter x
  unfold content_offset
  by_cases hterm : terminated delimiter x
  · rw [hyes hterm]
    constructor
    · intro h
      exact Or.inl ⟨header_bytes_inj (terminated_runs delimiter x hterm).2.2 h, hterm⟩
    · intro h
      rcases h with ⟨rfl, _⟩ | ⟨hnot, _⟩
      · rfl
      · exact absurd hterm hnot
  · have hlen := congrArg List.length (header_content (get_line_delimiter x) x)
    rw [List.length_append] at hlen
    rw [hno hterm]
    constructor
    · intro h
      exact Or.inr ⟨hterm, List.eq_nil_of_length_eq_zero (by omega)⟩
    · intro h
      rcases h with ⟨_, h⟩ | ⟨_, hnil⟩
      · exact absurd h hterm
      · rw [hnil, List.length_nil] at hlen
        omega

/-- The delimiter that was guessed is the text's own and the first content line ends, or
    there is no content and nothing is taken for a whole content line.  If a counted line
    has 2 ^ 31 bytes or more, what is lost on it would have to make up for what is counted
    behind the header. -/
def offset_reported (delimiter : Byte) (x : Bytes) : Prop :=
  if ∀ l ∈ counted delimiter x, l.length < 2 ^ 31 then
    delimiter = get_line_delimiter x ∧ terminated delimiter x ∨
      ¬ terminated delimiter x ∧ content_bytes (get_line_delimiter x) x = []
  else content_offset x + lost (counted delimiter x) = (counted delimiter x).flatten.length

/-- **When a header-only import returns the offset of the content**, for every way to cut
    a file into reads; the first read is where the delimiter is guessed. -/
theorem header_import_offset (x : Bytes) (hx : x ≠ []) (bufs : List Bytes) (hcut : cut_into x bufs)
    (no_hidden_header : Bool) :
    (import_from bufs .HEADER no_hidden_header).2 = content_offset x ↔
      offset_reported (get_line_delimiter (bufs.headD [])) x := by
  obtain ⟨buf, rest, rfl⟩ := hcut.cons hx
  obtain ⟨hbufs, hflat⟩ := hcut
  rw [import_from_value buf rest hbufs, hflat]
  show _ ↔ offset_reported (get_line_delimiter buf) x
  have hlost := count_lines_lost (counted (get_line_delimiter buf) x)
  unfold offset_reported
  split_ifs with hshort
  · rw [lost_short _ hshort] at hlost
    rw [← counted_iff_offset]
    omega
  · omega

/-- A file in one read, with a whole line of content. -/
theorem header_import_offset_whole :
    (import_from [lit "A: b\r\n\r\nc\r\n"] .HEADER true).2 = content_offset (lit "A: b\r\n\r\nc\r\n") ↔
      offset_reported (get_line_delimiter (([lit "A: b\r\n\r\nc\r\n"] : List Bytes).headD []))
        (lit "A: b\r\n\r\nc\r\n") :=
  header_import_offset (lit "A: b\r\n\r\nc\r\n") (by decide) [lit "A: b\r\n\r\nc\r\n"]
    ⟨fun buf hbuf => by rw [List.mem_singleton.mp hbuf]; decide, by rw [List.flatten_singleton]⟩ true

/-- **A content line that does not end** is counted. -/
theorem header_import_offset_open :
    (import_from [lit "A: b\r\n\r\nc"] .HEADER true).2 = 9 ∧
      content_offset (lit "A: b\r\n\r\nc") = 8 := by
  have hvalue := import_from_value (lit "A: b\r\n\r\nc") []
    (fun buf hbuf => by rw [List.mem_singleton.mp hbuf]; decide) true
  rw [hvalue]
  decide

/-! ## §4. What is left of the content. -/

/-- No string in the entity, or in an entity below it, holds a byte. -/
def holds_nothing (e : MIME_Entity) : Prop :=
  everywhere (fun d => d.header_.flatten = [] ∧ d.preamble = [] ∧ d.body = [] ∧ d.epilogue = []) e

/-- There is nothing in the entity but its header. -/
def header_only (e : MIME_Entity) : Prop :=
  e.preamble = [] ∧ e.body = [] ∧ e.epilogue = [] ∧ ∀ c ∈ e.child_, holds_nothing c

theorem holds_nothing_header (hs : MIME_Header_List) :
    holds_nothing (in_header hs) ↔ hs.flatten = [] := by
  unfold holds_nothing
  rw [everywhere_iff]
  exact ⟨fun h => h.1.1, fun h => ⟨⟨h, rfl, rfl, rfl⟩, fun c hc => absurd hc List.not_mem_nil⟩⟩

theorem holds_nothing_new : holds_nothing new := (holds_nothing_header []).mpr rfl

/-- What may be dispatched without a trace: a boundary, or a line that an enclosed message
    takes no notice of. -/
def traceless (no_hidden_header : Bool) (fields : MIME_Header_List) (line : Bytes) : Prop :=
  if separator_of fields ≠ [] then is_boundary (separator_of fields) line = true
  else is_message fields = true ∧ ignored no_hidden_header line

theorem flatten_same (line : Bytes) (ls : List Bytes) (hne : ls ≠ []) (hls : ∀ l ∈ ls, l = line) :
    ls.flatten = [] ↔ line = [] := by
  rw [List.flatten_eq_nil_iff]
  constructor
  · intro h
    obtain ⟨l, rest, rfl⟩ := List.exists_cons_of_ne_nil hne
    rw [← hls l List.mem_cons_self]
    exact h l List.mem_cons_self
  · intro h l hl
    rw [hls l hl]
    exact h

section Dispatch

variable (no_hidden_header : Bool) (fields blanks : MIME_Header_List) (line : Bytes)

/-- A boundary line puts no byte anywhere. -/
theorem header_only_boundary (e : MIME_Entity) (hdone : 2 ≤ e.pstate_.val)
    (hsep : e.separator_ ≠ []) (hb : is_boundary e.separator_ line = true) (he : header_only e) :
    header_only (e.parse_line line no_hidden_header true) := by
  obtain ⟨hpre, hbody, hepi, hchild⟩ := he
  have hadd : ∀ c ∈ e.child_ ++ [new], holds_nothing c := by
    intro c hc
    rcases List.mem_append.mp hc with hc | hc
    · exact hchild c hc
    · rw [List.mem_singleton.mp hc]
      exact holds_nothing_new
  rw [parse_line_content _ _ _ _ hdone]
  cases hend : is_boundary_end e.separator_ line with
  | true =>
      rw [parse_content_boundary_end true e line _ hsep hb hend]
      exact ⟨hpre, hbody, hepi, hchild⟩
  | false =>
      by_cases hp : e.pstate_ = .HEADER_DONE ∨ e.pstate_ = .BOUNDARY
      · rw [parse_content_boundary true e line _ hsep hb hend hp]
        exact ⟨hpre, hbody, hepi, hadd⟩
      · rw [parse_content_boundary_after true e line _ hsep hb hend hp]
        exact ⟨hpre, hbody, hepi, hchild⟩

theorem header_only_content : header_only (in_content fields blanks) := by
  refine ⟨rfl, rfl, rfl, fun c hc => ?_⟩
  unfold in_content in_blanks at hc
  dsimp only at hc
  split at hc
  · rw [List.mem_singleton.mp hc]
    exact holds_nothing_new
  · exact absurd hc List.not_mem_nil

/-- Boundary lines, one after the other. -/
theorem header_only_boundaries (ls : List Bytes) (hls : ∀ l ∈ ls, l = line) :
    ∀ e : MIME_Entity, 2 ≤ e.pstate_.val → e.separator_ ≠ [] →
      is_boundary e.separator_ line = true → header_only e →
      header_only (e.parse_lines no_hidden_header true ls) := by
  induction ls with
  | nil => exact fun e _ _ _ he => he
  | cons l ls ih =>
      intro e hdone hsep hb he
      rw [hls l List.mem_cons_self, parse_lines_cons]
      have hkeep := content_lines_keep no_hidden_header true [line] e hdone
      rw [parse_lines_cons, parse_lines_nil] at hkeep
      refine ih (fun m hm => hls m (List.mem_cons_of_mem l hm)) _ hkeep.2.2 ?_ ?_ ?_
      · rw [hkeep.2.1]
        exact hsep
      · rw [hkeep.2.1]
        exact hb
      · exact header_only_boundary no_hidden_header line e hdone hsep hb he

/-- The header of the enclosed message takes the lines. -/
theorem parse_enclosed_lines (hsep : separator_of fields = []) (hmsg : is_message fields = true)
    (hblanks : ∀ b ∈ blanks, is_blank b = true) (ls : List Bytes)
    (hls : ∀ l ∈ ls, is_blank l = false) :
    ∀ hs : MIME_Header_List,
      ({ in_content fields blanks with child_ := [in_header hs] } : MIME_Entity).parse_lines
          no_hidden_header true ls
        = { in_content fields blanks with
            child_ := [in_header (add_fields no_hidden_header hs ls)] } := by
  induction ls with
  | nil => exact fun hs => rfl
  | cons l ls ih =>
      intro hs
      rw [parse_lines_cons, parse_enclosed_line no_hidden_header fields blanks l hsep hmsg hblanks
        (hls l List.mem_cons_self), ih (fun m hm => hls m (List.mem_cons_of_mem l hm))]
      rfl

/-- A line that is not ignored is in the header for good. -/
theorem add_fields_same (ls : List Bytes) (hne : ls ≠ []) (hls : ∀ l ∈ ls, l = line) :
    (add_fields no_hidden_header [] ls).flatten = [] ↔ line = [] ∨ ignored no_hidden_header line := by
  by_cases h : ignored no_hidden_header line
  · refine iff_of_true ?_ (Or.inr h)
    clear hne
    induction ls with
    | nil => rfl
    | cons l ls ih =>
        have hstep : add_field no_hidden_header [] l = [] := by
          rw [hls l List.mem_cons_self]
          exact add_field_ignored no_hidden_header line h
        show (add_fields no_hidden_header (add_field no_hidden_header [] l) ls).flatten = []
        rw [hstep]
        exact ih (fun m hm => hls m (List.mem_cons_of_mem l hm))
  · have hrun : ∀ hs : MIME_Header_List, add_fields no_hidden_header hs ls = hs ++ ls := by
      clear hne
      induction ls with
      | nil => exact fun hs => (List.append_nil hs).symm
      | cons l ls ih =>
          intro hs
          have hstep : add_field no_hidden_header hs l = hs ++ [l] := by
            rw [hls l List.mem_cons_self]
            exact add_field_kept no_hidden_header hs line h
          show add_fields no_hidden_header (add_field no_hidden_header hs l) ls = _
          rw [hstep, ih (fun m hm => hls m (List.mem_cons_of_mem l hm)), List.append_assoc]
          rfl
    rw [hrun, List.nil_append, flatten_same line ls hne hls]
    exact (or_iff_left h).symm

end Dispatch

/-- **The first content line, dispatched once or more**, leaves the content empty if it is
    empty or traceless. -/
theorem header_only_lines (no_hidden_header : Bool) (fields blanks : MIME_Header_List)
    (line : Bytes) (hblanks : ∀ b ∈ blanks, is_blank b = true) (hline : is_blank line = false)
    (ls : List Bytes) (hne : ls ≠ []) (hls : ∀ l ∈ ls, l = line) :
    header_only ((in_content fields blanks).parse_lines no_hidden_header true ls) ↔
      line = [] ∨ traceless no_hidden_header fields line := by
  unfold traceless
  by_cases hsep : separator_of fields ≠ []
  · rw [if_pos hsep]
    cases hb : is_boundary (separator_of fields) line with
    | true =>
        refine iff_of_true ?_ (Or.inr rfl)
        exact header_only_boundaries no_hidden_header line ls hls (in_content fields blanks) le_rfl
          hsep hb (header_only_content fields blanks)
    | false =>
        -- the preamble takes the line each time
        obtain ⟨s', hs', hrun⟩ := parse_text no_hidden_header
          (fun s => { in_content fields blanks with preamble_ := s }) ls (fun l hl s => by
            rw [hls l hl, parse_line_content no_hidden_header true
                { in_content fields blanks with preamble_ := s } line le_rfl,
              parse_content_preamble true { in_content fields blanks with preamble_ := s } line _
                hsep hb rfl]
            rfl) none
        have hstart : in_content fields blanks
            = { in_content fields blanks with preamble_ := none } := rfl
        obtain ⟨_, hbody, hepi, hchild⟩ := header_only_content fields blanks
        rw [hstart, hrun, or_iff_left Bool.false_ne_true, ← flatten_same line ls hne hls]
        constructor
        · intro h
          exact hs'.symm.trans h.1
        · intro h
          exact ⟨hs'.trans h, hbody, hepi, hchild⟩
  · have hnosep : separator_of fields = [] := not_not.mp hsep
    rw [if_neg hsep]
    cases hmsg : is_message fields with
    | true =>
        have hblank : ∀ l ∈ ls, is_blank l = false := fun l hl => by rw [hls l hl]; exact hline
        rw [in_content_message fields blanks hmsg,
          parse_enclosed_lines no_hidden_header fields blanks hnosep hmsg hblanks ls hblank,
          and_iff_right rfl, ← add_fields_same no_hidden_header line ls hne hls,
          ← holds_nothing_header]
        constructor
        · intro h
          exact h.2.2.2 _ List.mem_cons_self
        · intro h
          exact ⟨rfl, rfl, rfl, fun c hc => by rw [List.mem_singleton.mp hc]; exact h⟩
    | false =>
        obtain ⟨l, rest, rfl⟩ := List.exists_cons_of_ne_nil hne
        obtain ⟨hpre, _, hepi, hchild⟩ := header_only_content fields blanks
        rw [parse_leaf no_hidden_header fields blanks hnosep hmsg hblanks,
          ← flatten_same line (l :: rest) hne hls]
        constructor
        · intro h
          exact Or.inl h.2.1
        · intro h
          exact ⟨hpre, h.resolve_right (fun h => Bool.false_ne_true h.1), hepi, hchild⟩

/-! ## §5. A header-only import of data. -/

/-- The first line of the content, as `import_data` cuts the lines, if there is one. -/
def first_content (x : Bytes) : Option Bytes :=
  (content_lines (all_lines (get_line_delimiter x) x)).head?

/-- The first content line leaves no trace. -/
def content_traceless (no_hidden_header : Bool) (x : Bytes) : Prop :=
  ∀ line ∈ first_content x, line = [] ∨
    traceless no_hidden_header
      (fields_of no_hidden_header (all_lines (get_line_delimiter x) x)) line

theorem dropWhile_singleton {α : Type} (p : α → Bool) (a : α) :
    [a].dropWhile p = [] ∨ [a].dropWhile p = [a] := by
  rw [List.dropWhile_cons]
  split
  · exact Or.inl rfl
  · exact Or.inr rfl

/-- One more line, where there was no content: it is the content, or there is none. -/
theorem content_lines_concat (ls : List Bytes) (last : Bytes) (h : content_lines ls = []) :
    content_lines (ls ++ [last]) = [] ∨ content_lines (ls ++ [last]) = [last] := by
  unfold content_lines at h ⊢
  rw [List.dropWhile_append]
  split
  · rcases dropWhile_singleton (fun l => ! is_blank l) last with hd | hd
    · rw [hd]
      exact Or.inl rfl
    · rw [hd]
      exact dropWhile_singleton is_blank last
  · rw [List.dropWhile_append, h]
    exact dropWhile_singleton is_blank last

/-- **Lines that were parsed with no early end.** -/
theorem header_only_all (no_hidden_header : Bool) (ls : List Bytes)
    (hc : content_lines ls = [] ∨ ∃ line, content_lines ls = [line]) :
    header_only (new.parse_lines no_hidden_header true ls) ↔
      ∀ line ∈ (content_lines ls).head?, line = [] ∨
        traceless no_hidden_header (fields_of no_hidden_header ls) line := by
  have hempty := header_only_content (fields_of no_hidden_header ls) (blank_lines ls)
  rw [parse_message]
  rcases hc with hc | ⟨line, hc⟩
  · rw [hc, if_pos rfl]
    refine iff_of_true ?_ (fun line hline => absurd hline (by simp))
    split
    · exact ⟨rfl, rfl, rfl, fun c hc => absurd hc List.not_mem_nil⟩
    · exact hempty
  · obtain ⟨hline, hblanks⟩ := content_lines_cons ls line [] hc
    rw [if_neg hblanks, hc, if_neg (List.cons_ne_nil line []),
      header_only_lines no_hidden_header _ _ line (blank_lines_blank ls) hline [line]
        (List.cons_ne_nil line []) (fun l hl => List.mem_singleton.mp hl)]
    simp

/-- **A header-only import reads the header** as a full one does; the rest of the entity
    is empty exactly if the first content line leaves no trace. -/
theorem header_import_iff (x : Bytes) (hx : x ≠ []) (no_hidden_header : Bool) :
    (import_data x .HEADER no_hidden_header).1.header_
        = (import_data x .ALL no_hidden_header).1.header_ ∧
    (header_only (import_data x .HEADER no_hidden_header).1 ↔
      content_traceless no_hidden_header x) := by
  have hall := import_data_lines .ALL no_hidden_header Flag.noConfusion x hx
  unfold content_traceless first_content
  rw [hall, header_of_message]
  generalize hd : get_line_delimiter x = delimiter
  by_cases hc : content_lines (lines delimiter x) = []
  · -- all lines are parsed, and the last one may be a content line
    have himport := import_data_all .HEADER no_hidden_header x hx (fun _ => by rw [hd]; exact hc)
    rw [hd] at himport
    change _ = new.parse_lines no_hidden_header true (all_lines delimiter x) at himport
    rw [himport, header_of_message]
    refine ⟨rfl, header_only_all no_hidden_header _ ?_⟩
    exact (content_lines_concat (lines delimiter x) (cut delimiter [] x).2 hc).imp_right
      (fun h => ⟨_, h⟩)
  · -- the line that stops the loop is parsed twice
    obtain ⟨line, rest, hline⟩ := List.exists_cons_of_ne_nil hc
    obtain ⟨hfields, hblanks, hcontent⟩ :=
      runs_append (lines delimiter x) [(cut delimiter [] x).2] hc
    change field_lines (all_lines delimiter x) = _ at hfields
    change blank_lines (all_lines delimiter x) = _ at hblanks
    change content_lines (all_lines delimiter x) = _ at hcontent
    have hsame : fields_of no_hidden_header (all_lines delimiter x)
        = fields_of no_hidden_header (lines delimiter x) := by
      unfold fields_of
      rw [hfields]
    have himport := import_data_header no_hidden_header x hx line rest (by rw [hd]; exact hline)
    rw [hd] at himport
    have htwice := header_only_lines no_hidden_header
      (fields_of no_hidden_header (lines delimiter x)) (blank_lines (lines delimiter x)) line
      (blank_lines_blank _) (content_lines_cons _ line rest hline).1 [line, line]
      (List.cons_ne_nil _ _) (fun l hl => by
        rcases List.mem_cons.mp hl with h | h
        · exact h
        · exact List.mem_singleton.mp h)
    have hkeep := content_lines_keep no_hidden_header true [line, line]
      (in_content (fields_of no_hidden_header (lines delimiter x)) (blank_lines (lines delimiter x)))
      le_rfl
    rw [parse_lines_cons, parse_lines_cons, parse_lines_nil, ← himport] at htwice hkeep
    rw [hkeep.1, htwice, hcontent, hline, hsame, hblanks]
    refine ⟨rfl, ?_⟩
    simp

/-- A multipart message whose content begins with its boundary. -/
theorem header_import_iff_boundary :
    let x := lit "Content-Type: a/b; boundary=c\r\n\r\n--c\r\nA: b\r\n\r\nd\r\n--c--\r\n"
    (import_data x .HEADER true).1.header_ = (import_data x .ALL true).1.header_ ∧
    (header_only (import_data x .HEADER true).1 ↔ content_traceless true x) :=
  header_import_iff _ (by decide) true

/-- **A line of a body** is in the entity, twice. -/
theorem header_import_body :
    (import_data (lit "A: b\r\n\r\nc\r\n") .HEADER true).1.body = lit "c\r\nc\r\n" := by
  have himport := import_data_header true (lit "A: b\r\n\r\nc\r\n") (by decide) (lit "c\r\n") []
    (by decide)
  rw [himport]
  decide

end Aos
