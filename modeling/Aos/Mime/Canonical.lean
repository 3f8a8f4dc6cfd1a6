/-
  Aos.Mime.Canonical — canonical entity trees, and the lines they are
  written as.

  A canonical header is a list of fields and blank lines that the parser reads
  back field by field; a canonical body, preamble or epilogue consists of whole
  lines and cannot be taken for something else.

  Main results:
    • `parse_canonical_header` — the lines of a canonical header make its
      fields and blank lines again;
    • `text_canonical` — what a canonical entity is written as.
-/
import Aos.Mime.Header
import Aos.Mime.Export
import Aos.Lib.Lines

namespace Aos

open Lib.Lines MIME_Entity

/-! ## §1. Canonical entities. -/

/-- A line that ends with CRLF. -/
def crlf_line (l : Bytes) : Prop := ∃ t, LF ∉ t ∧ l = t ++ [CR, LF]

/-- A text that is empty or ends with CRLF. -/
def crlf_text (s : Bytes) : Prop := s = [] ∨ ∃ t, s = t ++ [CR, LF]

/-- A header field: its line, and the folded lines that continue it. -/
def is_field (field : Bytes) : Prop :=
  ∃ (first : Bytes) (conts : List Bytes), field = first ++ conts.flatten ∧ crlf_line first ∧
    deref first ∉ [HIDDEN_HEADER_CHAR, SP, TAB, CR, LF] ∧
    ∀ c ∈ conts, crlf_line c ∧ (deref c = SP ∨ deref c = TAB)

/-- At least one field, then at least one blank line. -/
def canonical_header (hs fields blanks : MIME_Header_List) : Prop :=
  hs = fields ++ blanks ∧ fields ≠ [] ∧ (∀ f ∈ fields, is_field f) ∧
    blanks ≠ [] ∧ ∀ b ∈ blanks, b = [CR, LF]

/-- What an entity is written as with the default options. -/
def text (e : MIME_Entity) : Bytes := dump_bytes .ALL true e

/-- No line of the text begins with the separator. -/
def free_of (separator s : Bytes) : Prop := ∀ l ∈ lines LF s, ¬ separator <+: l

/-- The canonical trees. -/
inductive Canonical : MIME_Entity → Prop
  | leaf (e : MIME_Entity) (fields blanks : MIME_Header_List)
      (header : canonical_header e.header_ fields blanks)
      (boundary : e.get_boundary = [])
      (content_type : e.get_content_type ≠ lit "message/rfc822")
      (preamble : e.preamble = []) (epilogue : e.epilogue = []) (child : e.child_ = [])
      (body : crlf_text e.body) (body_start : is_blank e.body = false) : Canonical e
  | multipart (e : MIME_Entity) (fields blanks : MIME_Header_List)
      (header : canonical_header e.header_ fields blanks)
      (boundary : e.get_boundary ≠ []) (boundary_nul : NUL ∉ e.get_boundary)
      (content_type : e.get_content_type ≠ lit "message/rfc822")
      (body : e.body = [])
      (preamble : crlf_text e.preamble) (preamble_start : is_blank e.preamble = false)
      (epilogue : crlf_text e.epilogue)
      (child : e.child_ ≠ [])
      (preamble_free : free_of (lit "--" ++ e.get_boundary) e.preamble)
      (epilogue_free : free_of (lit "--" ++ e.get_boundary) e.epilogue)
      (child_free : ∀ c ∈ e.child_, free_of (lit "--" ++ e.get_boundary) (text c))
      (child_canonical : ∀ c ∈ e.child_, Canonical c) : Canonical e

/-! ## §2. Lines. -/

theorem crlf_line.isLine {l : Bytes} (h : crlf_line l) : IsLine LF l := by
  obtain ⟨t, ht, rfl⟩ := h
  refine ⟨t ++ [CR], ?_, by simp⟩
  simp only [List.mem_append, List.mem_singleton, not_or]
  exact ⟨ht, by decide⟩

theorem crlf_text.whole {s : Bytes} (h : crlf_text s) : Whole LF s := by
  rcases h with rfl | ⟨t, rfl⟩
  · exact whole_nil LF
  · have hsplit : t ++ [CR, LF] = (t ++ [CR]) ++ [LF] := by simp
    rw [hsplit]
    exact whole_of_ends LF _

theorem blank_isLine : IsLine LF [CR, LF] := ⟨[CR], by decide, rfl⟩

/-- Whole lines of which the first one begins a field and the others are folded. -/
def whole_field (f : Bytes) : Prop :=
  Whole LF f ∧ ∃ (first : Bytes) (conts : List Bytes), lines LF f = first :: conts ∧
    deref first ∉ [HIDDEN_HEADER_CHAR, SP, TAB, CR, LF] ∧ ∀ c ∈ conts, deref c = SP ∨ deref c = TAB

/-- A line and the lines folded behind it. -/
theorem whole_field_of_lines {first : Bytes} {conts : List Bytes} (hline : IsLine LF first)
    (hderef : deref first ∉ [HIDDEN_HEADER_CHAR, SP, TAB, CR, LF])
    (hconts : ∀ c ∈ conts, IsLine LF c ∧ (deref c = SP ∨ deref c = TAB)) :
    whole_field (first ++ conts.flatten) := by
  have hall : ∀ l ∈ first :: conts, IsLine LF l := by
    intro l hl
    rcases List.mem_cons.mp hl with rfl | hl
    · exact hline
    · exact (hconts l hl).1
  obtain ⟨hw, hl⟩ := lines_flatten hall
  exact ⟨hw, first, conts, hl, hderef, fun c hc => (hconts c hc).2⟩

/-- The lines of a field. -/
theorem lines_of_field {f : Bytes} (h : is_field f) : whole_field f := by
  obtain ⟨first, conts, rfl, hfirst, hderef, hconts⟩ := h
  exact whole_field_of_lines hfirst.isLine hderef fun c hc =>
    ⟨(hconts c hc).1.isLine, (hconts c hc).2⟩

/-- The text of a header. -/
theorem canonical_header.whole {hs fs bs : MIME_Header_List} (h : canonical_header hs fs bs) :
    Whole LF hs.flatten ∧ lines LF hs.flatten = fs.flatMap (lines LF) ++ bs := by
  obtain ⟨rfl, _, hfs, _, hbs⟩ := h
  obtain ⟨hfw, hfl⟩ := whole_flatten (fun f hf => (lines_of_field (hfs f hf)).1)
  have hbline : ∀ b ∈ bs, IsLine LF b := fun b hb => by
    rw [hbs b hb]
    exact blank_isLine
  obtain ⟨hbw, hbl⟩ := lines_flatten hbline
  rw [List.flatten_append]
  exact ⟨hfw.append hbw, by rw [lines_append hfw, hfl, hbl]⟩

/-! ## §3. Reading a canonical header. -/

variable (no_hidden_header with_body : Bool)

/-- The lines of one field add that field. -/
theorem add_whole_field (f : Bytes) (h : whole_field f) (hs : MIME_Header_List) :
    add_fields no_hidden_header hs (lines LF f) = hs ++ [f] := by
  obtain ⟨hw, first, conts, hl, hderef, hconts⟩ := h
  have hf := hw.flatten
  simp only [List.mem_cons, List.not_mem_nil, or_false, not_or] at hderef
  obtain ⟨hcolon, hsp, htab, _, _⟩ := hderef
  have hstep : add_field no_hidden_header hs first = hs ++ [first] := by
    unfold add_field
    rw [if_neg (fun h => h.elim htab hsp), if_pos (Or.inr hcolon)]
  rw [hl]
  show add_fields no_hidden_header (add_field no_hidden_header hs first) conts = _
  rw [hstep, add_continuations no_hidden_header conts hconts, ← List.flatten_cons, ← hl, hf]

theorem add_whole_fields (fs : MIME_Header_List) (h : ∀ f ∈ fs, whole_field f) :
    ∀ hs, add_fields no_hidden_header hs (fs.flatMap (lines LF)) = hs ++ fs := by
  induction fs with
  | nil => intro hs; exact (List.append_nil hs).symm
  | cons f fs ih =>
      intro hs
      have hstep := add_whole_field no_hidden_header f (h f List.mem_cons_self) hs
      have hrest := ih (fun f' hf' => h f' (List.mem_cons_of_mem f hf')) (hs ++ [f])
      rw [List.append_assoc, List.singleton_append] at hrest
      rw [← hrest, ← hstep, List.flatMap_cons]
      exact List.foldl_append

theorem field_lines_no_blank (fs : MIME_Header_List) (h : ∀ f ∈ fs, whole_field f) :
    ∀ l ∈ fs.flatMap (lines LF), is_blank l = false := by
  intro l hl
  obtain ⟨f, hf, hlf⟩ := List.mem_flatMap.mp hl
  obtain ⟨-, first, conts, hlines, hderef, hconts⟩ := h f hf
  rw [hlines] at hlf
  apply decide_eq_false
  rcases List.mem_cons.mp hlf with rfl | hc
  · intro hor
    rcases hor with h' | h'
    · exact hderef (by simp [h'])
    · exact hderef (by simp [h'])
  · rcases hconts l hc with h' | h'
    · rw [h']
      decide
    · rw [h']
      decide

/-- **The lines of a canonical header** make it again. -/
theorem parse_canonical_header {hs fs bs : MIME_Header_List} (h : canonical_header hs fs bs) :
    new.parse_lines no_hidden_header with_body (lines LF hs.flatten) = in_blanks fs bs := by
  rw [h.whole.2]
  obtain ⟨_, _, hfs, hne, hbs⟩ := h
  have hwhole : ∀ f ∈ fs, whole_field f := fun f hf => lines_of_field (hfs f hf)
  have hblank : ∀ b ∈ bs, is_blank b = true := fun b hb => by
    rw [hbs b hb]
    decide
  rw [parse_lines_append, new_eq_in_header, parse_fields _ _ _ (field_lines_no_blank fs hwhole),
    add_whole_fields no_hidden_header fs hwhole, List.nil_append, parse_blanks _ _ _ hne hblank]

/-! ## §4. Writing a canonical entity. -/

/-- No field of a canonical header is hidden. -/
theorem dump_canonical_header {hs fs bs : MIME_Header_List} (h : canonical_header hs fs bs) :
    dump_header no_hidden_header hs = hs.flatten := by
  have hhidden : ∀ field ∈ hs, is_hidden true field = false := by
    intro field hfield
    obtain ⟨rfl, _, hfs, _, hbs⟩ := h
    -- a field begins with no colon, and a blank line with CR
    have hderef : deref field ≠ HIDDEN_HEADER_CHAR := by
      rcases List.mem_append.mp hfield with hf | hb
      · obtain ⟨first, conts, rfl, ⟨t, _, rfl⟩, hfirst, _⟩ := hfs field hf
        cases t with
        | nil =>
            intro hd
            change CR = HIDDEN_HEADER_CHAR at hd
            exact absurd hd (by decide)
        | cons a t =>
            intro hd
            change a = HIDDEN_HEADER_CHAR at hd
            change a ∉ _ at hfirst
            exact hfirst (hd ▸ List.mem_cons_self)
      · rw [hbs field hb]
        decide
    unfold is_hidden
    simp [hderef]
  rw [← dump_header_all]
  cases no_hidden_header with
  | true => exact dump_header_no_hidden hs hhidden
  | false => rfl

theorem text_leaf (e : MIME_Entity) {fs bs : MIME_Header_List}
    (h : canonical_header e.header_ fs bs) (hp : e.preamble = []) (he : e.epilogue = [])
    (hc : e.child_ = []) : text e = e.header_.flatten ++ e.body := by
  unfold text
  rw [dump_bytes_eq]
  unfold compose
  rw [dump_canonical_header true h, if_neg (show ¬ Flag.ALL = .HEADER from Flag.noConfusion),
    if_pos hc, if_neg (show ¬ Flag.ALL = .NO_BODY from Flag.noConfusion), hp, he]
  simp

theorem text_multipart (e : MIME_Entity) {fs bs : MIME_Header_List}
    (h : canonical_header e.header_ fs bs) (hb : e.get_boundary ≠ []) (hc : e.child_ ≠ []) :
    text e = e.header_.flatten ++ (e.preamble ++
      ((e.child_.map (fun c => boundary_line e.get_boundary ++ text c)).flatten
        ++ (boundary_end_line e.get_boundary ++ e.epilogue))) := by
  unfold text
  rw [dump_bytes_eq]
  unfold compose
  rw [dump_canonical_header true h, if_neg (show ¬ Flag.ALL = .HEADER from Flag.noConfusion),
    if_neg hc, if_pos hb, if_pos hb, List.flatMap_def]
  simp

/-- **A canonical tree is written the same way** with hidden fields and without. -/
theorem text_canonical (e : MIME_Entity) {fs bs : MIME_Header_List}
    (h : canonical_header e.header_ fs bs) : (export_data e .ALL no_hidden_header).1 = text e := by
  show dump_data .ALL no_hidden_header e = _
  unfold text
  rw [dump_data_eq, dump_bytes_eq, compose_congr .ALL no_hidden_header _ (dump_bytes .ALL true) e
    (fun c _ => dump_data_default c)]
  unfold compose
  rw [dump_canonical_header no_hidden_header h, dump_canonical_header true h]

end Aos
