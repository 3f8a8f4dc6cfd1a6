/-
  Aos.Mime.Leaf — the parts of a single-part message, written and read again.

  A message that breaks its lines with LF or CRLF is read as whole fields, blank
  lines and a body; folded lines in front of the first field are dropped.  Fields
  and blank lines put together anew, with a body that does not begin a line of
  them, are read as they were put together.

  Main results:
    • `add_fields_whole`    — the fields that whole lines make;
    • `delimiter_of_breaks` — the delimiter of a text without a bare CR;
    • `import_leaf`         — what is put together is read back;
    • `entity_eq`           — what is read of a message.
-/
import Aos.Mime.Canonical
import Aos.Mime.Lossless

namespace Aos

open Lib.Lines MIME_Entity

/-! ## §1. Whole fields. -/

theorem whole_field.ne_nil {f : Bytes} (h : whole_field f) : f ≠ [] := by
  obtain ⟨-, first, conts, hl, -⟩ := h
  rintro rfl
  exact absurd hl (by simp [lines_nil])

/-- A field begins as its first line does. -/
theorem whole_field.deref {f : Bytes} (h : whole_field f) :
    Aos.deref f ∉ [HIDDEN_HEADER_CHAR, SP, TAB, CR, LF] := by
  have hne := h.ne_nil
  obtain ⟨hw, first, conts, hl, hfirst, -⟩ := h
  cases f with
  | nil => exact absurd rfl hne
  | cons a f =>
      obtain ⟨l, ls, hlines⟩ := lines_head hw
      obtain ⟨rfl, -⟩ := List.cons.inj (hl.symm.trans hlines)
      exact hfirst

theorem whole_field.getLast? {f : Bytes} (h : whole_field f) : f.getLast? = some LF :=
  (cut_carry_nil_iff LF f h.ne_nil).mp h.1

/-- A folded line lengthens a field. -/
theorem whole_field.append {f c : Bytes} (h : whole_field f) (hline : IsLine LF c)
    (hc : Aos.deref c = SP ∨ Aos.deref c = TAB) : whole_field (f ++ c) := by
  obtain ⟨hw, first, conts, hl, hfirst, hconts⟩ := h
  refine ⟨hw.append hline.whole, first, conts ++ [c], ?_, hfirst, ?_⟩
  · rw [lines_append hw, hl, hline.lines]
    rfl
  · intro c' hc'
    rcases List.mem_append.mp hc' with hold | hnew
    · exact hconts c' hold
    · exact List.mem_singleton.mp hnew ▸ hc

/-- **Whole lines make whole fields**, and none of them is lost but folded ones in front of the
    first field. -/
theorem add_fields_whole (no_hidden_header : Bool) (ls : List Bytes)
    (hline : ∀ l ∈ ls, IsLine LF l) (hblank : ∀ l ∈ ls, is_blank l = false)
    (hvisible : ∀ l ∈ ls, Aos.deref l ≠ HIDDEN_HEADER_CHAR) :
    (∃ dropped, ls.flatten = dropped ++ (add_fields no_hidden_header [] ls).flatten) ∧
      ∀ f ∈ add_fields no_hidden_header [] ls, whole_field f := by
  -- from the end: the last line lengthens the last field or begins one
  induction ls using List.reverseRecOn with
  | nil => exact ⟨⟨[], rfl⟩, fun f hf => absurd hf List.not_mem_nil⟩
  | append_singleton ls l ih =>
      have hfront : ∀ {P : Bytes → Prop}, (∀ a ∈ ls ++ [l], P a) → ∀ a ∈ ls, P a :=
        fun h a ha => h a (List.mem_append_left _ ha)
      have hlast : l ∈ ls ++ [l] := List.mem_append_right _ List.mem_cons_self
      obtain ⟨⟨dropped, hdropped⟩, hwhole⟩ := ih (hfront hline) (hfront hblank) (hfront hvisible)
      have hstep : add_fields no_hidden_header [] (ls ++ [l])
          = add_field no_hidden_header (add_fields no_hidden_header [] ls) l := List.foldl_concat ..
      rw [hstep, List.flatten_append, List.flatten_singleton, hdropped]
      generalize add_fields no_hidden_header [] ls = hs at hwhole ⊢
      unfold add_field
      by_cases hcont : Aos.deref l = TAB ∨ Aos.deref l = SP
      · rw [if_pos hcont]
        rcases List.eq_nil_or_concat' hs with rfl | ⟨init, f, rfl⟩
        · -- there is no field to be folded behind
          rw [if_neg (not_not.mpr rfl)]
          exact ⟨⟨dropped ++ [].flatten ++ l, (List.append_nil _).symm⟩, hwhole⟩
        · rw [if_pos (by simp), append_to_last_concat]
          refine ⟨⟨dropped, by simp⟩, fun g hg => ?_⟩
          rcases List.mem_append.mp hg with hg | hg
          · exact hwhole g (List.mem_append_left _ hg)
          · rw [List.mem_singleton.mp hg]
            exact (hwhole f (by simp)).append (hline l hlast) hcont.symm
      · have hderef : Aos.deref l ∉ [HIDDEN_HEADER_CHAR, SP, TAB, CR, LF] := by
          have hno := of_decide_eq_false (hblank l hlast)
          rw [not_or] at hcont hno
          simp only [List.mem_cons, List.not_mem_nil, or_false, not_or]
          exact ⟨hvisible l hlast, hcont.2, hcont.1, hno.1, hno.2⟩
        rw [if_neg hcont, if_pos (Or.inr (hvisible l hlast))]
        refine ⟨⟨dropped, by simp⟩, fun g hg => ?_⟩
        rcases List.mem_append.mp hg with hg | hg
        · exact hwhole g hg
        · rw [List.mem_singleton.mp hg]
          have hone : whole_field (l ++ ([] : List Bytes).flatten) :=
            whole_field_of_lines (hline l hlast) hderef (by simp)
          rwa [List.flatten_nil, List.append_nil] at hone

/-! ## §2. Line breaks. -/

/-- Every CR stands in front of an LF. -/
def lf_breaks (s : Bytes) : Prop := ∀ a b, s = a ++ CR :: b → b.head? = some LF

theorem lf_breaks.behind {p q : Bytes} (h : lf_breaks (p ++ q)) : lf_breaks q := by
  rintro a b rfl
  exact h (p ++ a) b (List.append_assoc _ _ _).symm

theorem lf_breaks.front {p q : Bytes} (h : lf_breaks (p ++ q)) (hlast : p.getLast? ≠ some CR) :
    lf_breaks p := by
  rintro a b rfl
  have hnext := h a (b ++ q) (List.append_assoc _ _ _)
  cases b with
  | nil => exact absurd List.getLast?_concat hlast
  | cons c b => exact hnext

theorem lf_breaks.append {p q : Bytes} (hp : lf_breaks p) (hq : lf_breaks q) :
    lf_breaks (p ++ q) := by
  intro a b h
  rcases List.append_eq_append_iff.mp h with ⟨a', rfl, hrest⟩ | ⟨c, rfl, hrest⟩
  · exact hq a' b hrest
  · cases c with
    | nil => exact hq [] b hrest.symm
    | cons d c =>
        obtain ⟨rfl, hb⟩ := List.cons.inj hrest
        have hbehind : b = c ++ q := hb
        rw [hbehind, List.head?_append, hp a c rfl]
        rfl

/-- A line that ends with CRLF. -/
theorem lf_breaks_line {p : Bytes} (h : CR ∉ p) : lf_breaks (p ++ [CR, LF]) := by
  intro a b hab
  rcases List.append_eq_append_iff.mp hab with ⟨a', rfl, hrest⟩ | ⟨c, rfl, hrest⟩
  · cases a' with
    | nil =>
        obtain ⟨-, rfl⟩ := List.cons.inj hrest
        rfl
    | cons d a' =>
        obtain ⟨-, hrest⟩ := List.cons.inj hrest
        cases a' with
        | nil => exact absurd (List.cons.inj hrest).1 (by decide)
        | cons d' a' => exact absurd (List.cons.inj hrest).2 (by simp)
  · cases c with
    | nil =>
        obtain ⟨-, rfl⟩ := List.cons.inj hrest
        rfl
    | cons d c =>
        obtain ⟨rfl, -⟩ := List.cons.inj hrest
        exact absurd (List.mem_append_right a List.mem_cons_self) h

/-- Whole fields end with an LF. -/
theorem fields_last {fields : MIME_Header_List} (h : ∀ f ∈ fields, whole_field f) :
    fields.flatten.getLast? ≠ some CR := by
  intro hlast
  by_cases hnil : fields.flatten = []
  · rw [hnil] at hlast
    cases hlast
  · have hend := (cut_carry_nil_iff LF _ hnil).mp (whole_flatten fun f hf => (h f hf).1).1
    rw [hend] at hlast
    exact absurd hlast (by decide)

/-- A bare CR comes first where it is taken for the delimiter. -/
theorem get_line_delimiter_cr (buf : Bytes) (h : get_line_delimiter buf = CR) :
    ∃ a b, buf = a ++ CR :: b ∧ LF ∉ a ∧ b.head? ≠ some LF := by
  fun_induction get_line_delimiter buf with
  | case1 next buf => exact absurd h (by decide)
  | case2 buf _ => exact absurd h (by decide)
  | case3 next buf hnext _ =>
      exact ⟨[], next :: buf, rfl, List.not_mem_nil, fun hhead => hnext (Option.some.inj hhead)⟩
  | case4 b next buf hlf hcr ih =>
      obtain ⟨a, rest, hsplit, hfree, hhead⟩ := ih h
      refine ⟨b :: a, rest, by rw [hsplit]; rfl, ?_, hhead⟩
      rw [List.mem_cons, not_or]
      exact ⟨Ne.symm hlf, hfree⟩
  | case5 buf _ => exact absurd h (by decide)

/-- **The delimiter of a text** whose first line breaks are LF and CRLF, and that has one in front
    of its last byte. -/
theorem delimiter_of_breaks {s : Bytes} (h : lf_breaks s) (hlf : LF ∈ s) {more : Bytes}
    (hbreak : ∃ c ∈ (s ++ more).dropLast, c = LF ∨ c = CR) :
    get_line_delimiter (s ++ more) = LF := by
  rcases get_line_delimiter_values (s ++ more) with hd | hd | hd
  · exact hd
  · -- the bare CR stands in front of an LF that is in `s`
    exfalso
    obtain ⟨a, b, hsplit, hfree, hhead⟩ := get_line_delimiter_cr _ hd
    rcases List.append_eq_append_iff.mp hsplit with ⟨a', rfl, -⟩ | ⟨c, rfl, hrest⟩
    · exact hfree (List.mem_append_left _ hlf)
    · cases c with
      | nil =>
          rw [List.append_nil] at hlf
          exact hfree hlf
      | cons d c =>
          obtain ⟨rfl, hb⟩ := List.cons.inj hrest
          have hbehind : b = c ++ more := hb
          rw [hbehind, List.head?_append, h a c rfl] at hhead
          exact hhead rfl
  · obtain ⟨c, hc, hor⟩ := hbreak
    have hno := (get_line_delimiter_none_iff _).mp hd c hc
    exact absurd hor (not_or.mpr hno)

/-! ## §3. A leaf put together. -/

/-- The parts of a leaf: its fields, the blank lines behind them, and a body that does not begin
    with one. -/
structure Leaf_Parts (fields blanks : MIME_Header_List) (body : Bytes) : Prop where
  whole : ∀ f ∈ fields, whole_field f
  blank : ∀ b ∈ blanks, IsLine LF b ∧ is_blank b = true
  start : is_blank body = false
  empty : blanks = [] → body = []
  boundary : separator_of fields = []
  content_type : is_message fields = false

/-- The text of the parts. -/
def leaf_text (fields blanks : MIME_Header_List) (body : Bytes) : Bytes :=
  fields.flatten ++ blanks.flatten ++ body

/-- The entity that is read.  Without a blank line the empty last line is taken for a field. -/
def read_leaf (fields blanks : MIME_Header_List) (body : Bytes) : MIME_Entity :=
  if blanks = [] then in_header (fields ++ [[]])
  else { in_content fields blanks with body_ := some body }

theorem all_lines_append {d : Byte} {xs : Bytes} (h : Whole d xs) (ys : Bytes) :
    all_lines d (xs ++ ys) = lines d xs ++ all_lines d ys := by
  unfold Whole at h
  unfold all_lines lines
  rw [cut_append, h, List.append_assoc]

/-- The empty last line of a header without a blank one. -/
theorem add_field_empty (no_hidden_header : Bool) (hs : MIME_Header_List) :
    add_field no_hidden_header hs [] = hs ++ [[]] := by
  unfold add_field
  rw [if_neg (by decide), if_pos (Or.inr (by decide))]

theorem read_leaf_header (fields blanks : MIME_Header_List) (body : Bytes) :
    (read_leaf fields blanks body).header_
      = fields ++ if blanks = [] then [[]] else blanks := by
  unfold read_leaf
  split_ifs
  · rfl
  · rfl

/-- A header without a hidden field is written whole. -/
theorem dump_header_visible (no_hidden_header : Bool) {hs : MIME_Header_List}
    (h : ∀ f ∈ hs, Aos.deref f ≠ HIDDEN_HEADER_CHAR) :
    dump_header no_hidden_header hs = hs.flatten := by
  rw [← dump_header_all]
  cases no_hidden_header with
  | true =>
      refine dump_header_no_hidden hs fun f hf => ?_
      unfold is_hidden
      rw [decide_eq_false (h f hf), Bool.and_false, Bool.and_false]
  | false => rfl

/-- An entity with nothing but a header and a body is written as these. -/
theorem export_visible {e : MIME_Entity} (hp : e.preamble_ = none) (he : e.epilogue_ = none)
    (hc : e.child_ = []) (h : ∀ f ∈ e.header_, Aos.deref f ≠ HIDDEN_HEADER_CHAR)
    (no_hidden_header : Bool) :
    (export_data e .ALL no_hidden_header).1 = e.header_.flatten ++ e.body := by
  rw [export_leaf e _ hp he hc, dump_header_visible no_hidden_header h]

/-- A field of another name says nothing. -/
theorem header_parameter_insert (A B : MIME_Header_List) {f field : Bytes} {count : Nat}
    (h : strncasecmp f field count ≠ 0) (name : Bytes) :
    header_parameter (A ++ f :: B) field count name = header_parameter (A ++ B) field count name := by
  unfold header_parameter
  rw [List.find?_append, List.find?_append,
    List.find?_cons_of_neg (by rw [decide_eq_true_iff]; exact h)]

/-- Nor does it change whether there are parts. -/
theorem leaf_insert (A B : MIME_Header_List) {f : Bytes}
    (h : strncasecmp f (lit "content-type:") 13 ≠ 0) :
    separator_of (A ++ f :: B) = separator_of (A ++ B) ∧
      is_message (A ++ f :: B) = is_message (A ++ B) := by
  have hsame := header_parameter_insert A B h
  unfold separator_of is_message get_boundary get_content_type
  rw [show (in_header (A ++ f :: B)).header_ = A ++ f :: B from rfl, hsame, hsame]
  exact ⟨rfl, rfl⟩

/-- An entity that is exported with all it has, and imported again. -/
def MIME_Entity.read_again (e : MIME_Entity) (hidden hidden' : Bool) : MIME_Entity :=
  (import_data (export_data e .ALL hidden).1 .ALL hidden').1

section Parts

variable {fields blanks : MIME_Header_List} {body : Bytes} (h : Leaf_Parts fields blanks body)

include h

/-- The lines of the parts. -/
theorem leaf_lines :
    all_lines LF (leaf_text fields blanks body)
      = fields.flatMap (lines LF) ++ (blanks ++ all_lines LF body) := by
  obtain ⟨hfw, hfl⟩ := whole_flatten fun f hf => (h.whole f hf).1
  obtain ⟨hbw, hbl⟩ := lines_flatten fun b hb => (h.blank b hb).1
  rw [leaf_text, all_lines_append (hfw.append hbw), lines_append hfw, hfl, hbl, List.append_assoc]

/-- **What is put together is read back.** -/
theorem import_leaf (no_hidden_header : Bool)
    (hd : get_line_delimiter (leaf_text fields blanks body) = LF) :
    (import_data (leaf_text fields blanks body) .ALL no_hidden_header).1
      = read_leaf fields blanks body := by
  have hne : leaf_text fields blanks body ≠ [] := by
    intro hnil
    rw [hnil] at hd
    exact absurd hd (by decide)
  have hblank : ∀ b ∈ blanks, is_blank b = true := fun b hb => (h.blank b hb).2
  rw [import_data_lines .ALL no_hidden_header Flag.noConfusion _ hne, hd,
    show with_body .ALL = true from rfl, leaf_lines h, parse_lines_append, new_eq_in_header,
    parse_fields _ _ _ (field_lines_no_blank fields h.whole),
    add_whole_fields no_hidden_header fields h.whole, List.nil_append, read_leaf]
  by_cases hb : blanks = []
  · -- the only line left is the empty one
    rw [if_pos hb, hb, h.empty hb, List.nil_append]
    show (in_header fields).parse_line [] no_hidden_header true = _
    rw [parse_line_in_header _ _ _ _ (by decide), add_field_empty]
  · rw [if_neg hb, parse_lines_append, parse_blanks _ _ _ hb hblank]
    -- the line behind the blank ones ends the header, be it empty
    obtain ⟨l, ls, hl, hstart⟩ : ∃ l ls, all_lines LF body = l :: ls ∧ is_blank l = false := by
      by_cases hbody : body = []
      · exact ⟨[], [], by rw [hbody]; rfl, by decide⟩
      · obtain ⟨l, ls, hl, -, hderef⟩ := all_lines_head LF body hbody
        refine ⟨l, ls, hl, ?_⟩
        unfold is_blank
        rw [hderef]
        exact h.start
    rw [hl, parse_content _ _ _ _ _ _ hstart,
      parse_leaf no_hidden_header _ _ h.boundary h.content_type hblank, ← hl, all_lines_flatten]

theorem read_leaf_body : (read_leaf fields blanks body).body = body := by
  unfold read_leaf
  split_ifs with hb
  · rw [h.empty hb]
    rfl
  · rfl

/-- Nothing else is read. -/
theorem read_leaf_bare :
    (read_leaf fields blanks body).preamble_ = none ∧
      (read_leaf fields blanks body).epilogue_ = none ∧
      (read_leaf fields blanks body).child_ = [] := by
  unfold read_leaf
  split_ifs
  · exact ⟨rfl, rfl, rfl⟩
  · refine ⟨rfl, rfl, ?_⟩
    show (if is_message fields then [new] else []) = []
    rw [h.content_type]
    rfl

/-- The header that is written of the parts, as a list. -/
theorem leaf_header_visible :
    ∀ f ∈ fields ++ (if blanks = [] then [[]] else blanks), Aos.deref f ≠ HIDDEN_HEADER_CHAR := by
  intro f hf
  rcases List.mem_append.mp hf with hfield | hblank
  · exact fun hcolon => (h.whole f hfield).deref (by rw [hcolon]; exact List.mem_cons_self)
  · split_ifs at hblank
    · rw [List.mem_singleton.mp hblank]
      decide
    · obtain ⟨c, s, rfl, hc⟩ := is_blank_cases (h.blank f hblank).2
      rcases hc with rfl | rfl
      · exact (by decide : CR ≠ HIDDEN_HEADER_CHAR)
      · exact (by decide : LF ≠ HIDDEN_HEADER_CHAR)

/-- **Parts that are written are read again**, whatever entity they stand in. -/
theorem read_again_parts {e : MIME_Entity} (hp : e.preamble_ = none) (he : e.epilogue_ = none)
    (hc : e.child_ = []) (hheader : e.header_ = fields ++ if blanks = [] then [[]] else blanks)
    (hbody : e.body = body) (hd : get_line_delimiter (leaf_text fields blanks body) = LF)
    (hidden hidden' : Bool) : e.read_again hidden hidden' = read_leaf fields blanks body := by
  have hflat : (if blanks = [] then [[]] else blanks).flatten = blanks.flatten := by
    split_ifs with hb
    · rw [hb]
      rfl
    · rfl
  have hvisible := leaf_header_visible h
  rw [← hheader] at hvisible
  rw [read_again, export_visible hp he hc hvisible hidden, hheader, List.flatten_append, hflat, hbody]
  exact import_leaf h hidden' hd

end Parts

/-! ## §4. Messages. -/

/-- The lines of the header, by the line feeds. -/
def head_lines (x : Bytes) : List Bytes :=
  field_lines (all_lines LF x) ++ blank_lines (all_lines LF x)

/-- A message of a single part that ends the lines of its header with LF or CRLF, and of which no
    header line begins with a colon. -/
structure Leaf_Message (no_hidden_header : Bool) where
  text : Bytes
  ne_nil : text ≠ []
  ended : ∀ l ∈ head_lines text, l ≠ [] → l.getLast? = some LF
  breaks : lf_breaks (head_lines text).flatten
  visible : ∀ l ∈ head_lines text, deref l ≠ HIDDEN_HEADER_CHAR
  boundary : (import_data text .ALL no_hidden_header).1.get_boundary = []
  content_type : (import_data text .ALL no_hidden_header).1.get_content_type ≠ lit "message/rfc822"

namespace Leaf_Message

variable {no_hidden_header : Bool} (m : Leaf_Message no_hidden_header)

/-- The message as it is imported. -/
def entity : MIME_Entity := (import_data m.text .ALL no_hidden_header).1

/-- Its first line is a header line. -/
theorem header_break : LF ∈ (head_lines m.text).flatten := by
  obtain ⟨l, ls, hl, hne, -⟩ := all_lines_head LF m.text m.ne_nil
  have hmem : l ∈ head_lines m.text := by
    have hsplit := lines_split (all_lines LF m.text)
    rw [hl] at hsplit
    unfold head_lines
    rw [hl]
    cases hh : field_lines (l :: ls) ++ blank_lines (l :: ls) with
    | nil =>
        rw [hh, List.nil_append] at hsplit
        exact absurd (List.append_eq_nil_iff.mp hh).2 (content_lines_cons _ _ _ hsplit.symm).2
    | cons a as =>
        rw [hh, List.cons_append] at hsplit
        rw [(List.cons.inj hsplit).1]
        exact List.mem_cons_self
  exact List.mem_flatten.mpr ⟨l, hmem, List.mem_of_getLast? (m.ended l hmem hne)⟩

/-- **The delimiter of a message** that has a line break in front of its last byte. -/
theorem delimiter (h : ∃ c ∈ m.text.dropLast, c = LF ∨ c = CR) : get_line_delimiter m.text = LF := by
  have hsplit : m.text = (head_lines m.text).flatten
      ++ (content_lines (all_lines LF m.text)).flatten := by
    rw [head_lines, ← List.flatten_append, ← lines_split, all_lines_flatten]
  rw [hsplit] at h ⊢
  exact delimiter_of_breaks m.breaks m.header_break h

/-- A header line that is not empty is whole. -/
theorem header_isLine {l : Bytes} (hl : l ∈ head_lines m.text) (hne : l ≠ []) : IsLine LF l := by
  have hmem : l ∈ lines LF m.text ++ [(cut LF [] m.text).2] := by
    show l ∈ all_lines LF m.text
    rw [lines_split (all_lines LF m.text)]
    exact List.mem_append_left _ hl
  rcases List.mem_append.mp hmem with hwhole | hlast
  · exact cut_isLine LF m.text [] List.not_mem_nil l hwhole
  · have hfree := cut_carry LF m.text [] List.not_mem_nil
    rw [List.mem_singleton.mp hlast] at hl hne
    exact absurd (List.mem_of_getLast? (m.ended _ hl hne)) hfree

/-- The field lines; behind a header without a blank line the last one is empty. -/
def field_text : List Bytes := (field_lines (all_lines LF m.text)).filter fun l => l ≠ []

/-- The fields that are read. -/
def fields : MIME_Header_List := add_fields no_hidden_header [] m.field_text

/-- The blank lines behind them. -/
def blanks : MIME_Header_List := blank_lines (all_lines LF m.text)

/-- What comes then. -/
def content : Bytes := (content_lines (all_lines LF m.text)).flatten

theorem all_parts : all_lines LF m.text
    = field_lines (all_lines LF m.text) ++ (m.blanks ++ content_lines (all_lines LF m.text)) := by
  rw [← List.append_assoc]
  exact lines_split (all_lines LF m.text)

/-- A header without a blank line ends in the empty one. -/
theorem field_lines_open (h : m.blanks = []) :
    field_lines (all_lines LF m.text) = m.field_text ++ [[]] ∧ m.content = [] := by
  obtain ⟨hfields, hcontent⟩ := field_lines_of_no_blank (all_lines LF m.text) h
  -- a last line without its LF would be a header line that is not ended
  have hlast : (cut LF [] m.text).2 = [] := by
    by_contra hne
    have hmem : (cut LF [] m.text).2 ∈ head_lines m.text := by
      refine List.mem_append_left _ ?_
      rw [hfields]
      exact List.mem_append_right _ List.mem_cons_self
    exact cut_carry LF m.text [] List.not_mem_nil (m.header_isLine hmem hne).mem
  have hall : all_lines LF m.text = lines LF m.text ++ [[]] := by
    rw [← hlast]
    rfl
  have hwhole : (lines LF m.text).filter (fun l => l ≠ []) = lines LF m.text :=
    List.filter_eq_self.mpr fun l hl =>
      decide_eq_true (cut_isLine LF m.text [] List.not_mem_nil l hl).ne_nil
  have hempty : ([[]] : List Bytes).filter (fun l => l ≠ []) = [] := rfl
  refine ⟨?_, by rw [content, hcontent]; rfl⟩
  rw [field_text, hfields, hall, List.filter_append, hwhole, hempty, List.append_nil]

/-- In front of a blank line all of them are whole, and there is a line behind it. -/
theorem field_lines_closed (h : m.blanks ≠ []) :
    field_lines (all_lines LF m.text) = m.field_text ∧
      content_lines (all_lines LF m.text) ≠ [] := by
  refine ⟨?_, fun hnil => ?_⟩
  · have hwhole := all_lines_init LF m.text _ _ m.all_parts (List.append_ne_nil_of_left_ne_nil h _)
    exact (List.filter_eq_self.mpr fun l hl => decide_eq_true (hwhole l hl).ne_nil).symm
  · -- the last line would be a blank one, and blank lines are whole
    have hlast : (m.blanks.getLast h) = (cut LF [] m.text).2 := by
      have hall := m.all_parts
      rw [hnil, List.append_nil] at hall
      have heq : (lines LF m.text ++ [(cut LF [] m.text).2]).getLast?
          = (field_lines (all_lines LF m.text) ++ m.blanks).getLast? := congrArg _ hall
      rw [List.getLast?_concat, List.getLast?_append_of_ne_nil _ h,
        List.getLast?_eq_getLast_of_ne_nil h] at heq
      exact (Option.some.inj heq).symm
    have hmem := List.getLast_mem h
    have hne : m.blanks.getLast h ≠ [] := by
      obtain ⟨b, s, hb, -⟩ := is_blank_cases (blank_lines_blank _ _ hmem)
      rw [hb]
      exact List.cons_ne_nil b s
    have hline := m.header_isLine (List.mem_append_right _ hmem) hne
    rw [hlast] at hline
    exact cut_carry LF m.text [] List.not_mem_nil hline.mem

theorem fields_of_message :
    fields_of no_hidden_header (all_lines LF m.text)
      = m.fields ++ if m.blanks = [] then [[]] else [] := by
  unfold fields_of
  split_ifs with hb
  · rw [(m.field_lines_open hb).1]
    have hstep : add_fields no_hidden_header [] (m.field_text ++ [[]])
        = add_field no_hidden_header m.fields [] := List.foldl_concat ..
    rw [hstep, add_field_empty]
  · rw [(m.field_lines_closed hb).1, List.append_nil, fields]

theorem field_text_whole :
    (∃ dropped, m.field_text.flatten = dropped ++ m.fields.flatten) ∧
      ∀ f ∈ m.fields, whole_field f := by
  have hmem : ∀ l ∈ m.field_text, l ∈ field_lines (all_lines LF m.text) ∧ l ≠ [] := by
    intro l hl
    obtain ⟨hl, hne⟩ := List.mem_filter.mp hl
    exact ⟨hl, of_decide_eq_true hne⟩
  refine add_fields_whole no_hidden_header m.field_text (fun l hl => ?_) (fun l hl => ?_)
    fun l hl => ?_
  · exact m.header_isLine (List.mem_append_left _ (hmem l hl).1) (hmem l hl).2
  · exact field_lines_not_blank _ l (hmem l hl).1
  · exact m.visible l (List.mem_append_left _ (hmem l hl).1)

/-- There is no bare CR in the fields. -/
theorem fields_breaks : lf_breaks m.fields.flatten := by
  obtain ⟨⟨dropped, hdropped⟩, hwhole⟩ := m.field_text_whole
  have hall : lf_breaks (dropped ++ (m.fields.flatten ++ m.blanks.flatten)) := by
    have hheader : (field_lines (all_lines LF m.text)).flatten = dropped ++ m.fields.flatten := by
      rw [← hdropped]
      by_cases hb : m.blanks = []
      · rw [(m.field_lines_open hb).1, List.flatten_append]
        exact List.append_nil _
      · rw [(m.field_lines_closed hb).1]
    have hbreaks := m.breaks
    rw [head_lines, List.flatten_append, hheader, List.append_assoc] at hbreaks
    exact hbreaks
  exact hall.behind.front (fields_last hwhole)

section Read

variable (hd : get_line_delimiter m.text = LF)

include hd

theorem entity_lines :
    m.entity = new.parse_lines no_hidden_header true (all_lines LF m.text) := by
  rw [entity, import_data_lines .ALL no_hidden_header Flag.noConfusion _ m.ne_nil, hd]
  rfl

/-- The fields say that the message is of a single part. -/
theorem leaf_fields : separator_of m.fields = [] ∧ is_message m.fields = false := by
  have hbound := m.boundary
  have hct := m.content_type
  have hlines := m.entity_lines hd
  unfold entity at hlines
  rw [hlines] at hbound hct
  have hleaf := leaf_of_lines no_hidden_header true _ hbound hct
  rw [m.fields_of_message] at hleaf
  by_cases hb : m.blanks = []
  · obtain ⟨hsep, hmsg⟩ := leaf_insert m.fields [] (f := []) (by decide)
    rw [if_pos hb, hsep, hmsg, List.append_nil] at hleaf
    exact hleaf
  · rw [if_neg hb, List.append_nil] at hleaf
    exact hleaf

/-- **The parts of a message.** -/
theorem parts : Leaf_Parts m.fields m.blanks m.content where
  whole := m.field_text_whole.2
  blank b hb := by
    have hblank : is_blank b = true := blank_lines_blank _ b hb
    have hne : b ≠ [] := by
      rintro rfl
      exact absurd hblank (by decide)
    exact ⟨m.header_isLine (List.mem_append_right _ hb) hne, hblank⟩
  start := by
    by_cases hb : m.blanks = []
    · rw [(m.field_lines_open hb).2]
      decide
    · obtain ⟨l, ls, hc⟩ := List.exists_cons_of_ne_nil (m.field_lines_closed hb).2
      have hblank := (content_lines_cons _ l ls hc).1
      rw [content, hc]
      -- only the last line may be empty, and then there is nothing behind it to be seen
      by_cases hls : ls = []
      · rw [hls, List.flatten_singleton]
        exact hblank
      · have hsplit : all_lines LF m.text
            = (field_lines (all_lines LF m.text) ++ m.blanks ++ [l]) ++ ls := by
          conv_lhs => rw [m.all_parts, hc]
          simp only [List.append_assoc, List.singleton_append]
        have hline := all_lines_init LF m.text _ ls hsplit hls l (by simp)
        obtain ⟨a, t, rfl⟩ := List.exists_cons_of_ne_nil hline.ne_nil
        exact hblank
  empty hb := (m.field_lines_open hb).2
  boundary := (m.leaf_fields hd).1
  content_type := (m.leaf_fields hd).2

/-- **What is read of a message.** -/
theorem entity_eq : m.entity = read_leaf m.fields m.blanks m.content := by
  have hparts := m.parts hd
  have hopen : blank_lines (all_lines LF m.text) = m.blanks := rfl
  rw [m.entity_lines hd, parse_message, m.fields_of_message, read_leaf, hopen]
  by_cases hb : m.blanks = []
  · rw [if_pos hb, if_pos hb, if_pos hb]
  · have hcontent := (m.field_lines_closed hb).2
    obtain ⟨l, ls, hc⟩ := List.exists_cons_of_ne_nil hcontent
    rw [if_neg hb, if_neg hb, if_neg hb, if_neg hcontent, List.append_nil, hc,
      parse_leaf no_hidden_header _ _ hparts.boundary hparts.content_type
        (fun b hb => (hparts.blank b hb).2), ← hc]
    rfl

end Read

end Leaf_Message

end Aos
