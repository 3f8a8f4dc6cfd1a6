/-
  Aos.Mime.Lossless — a single-part message survives import and export.

  Every byte of the input lands in one line (`cut_bytes`), and every line in
  one string of the entity: a field, a blank line of the header, or the body.
  The strings are exported in the order in which the lines were read.

  **`import_export_lossless`** is that, for any line breaks at all.
-/
import Aos.Mime.Header
import Aos.Mime.Import
import Aos.Mime.Export

namespace Aos

open Lib.Lines MIME_Entity

/-! ## §1. What a leaf exports. -/

theorem export_leaf (e : MIME_Entity) (no_hidden_header : Bool) (hp : e.preamble_ = none)
    (he : e.epilogue_ = none) (hc : e.child_ = []) :
    (export_data e .ALL no_hidden_header).1 = dump_header no_hidden_header e.header_ ++ e.body := by
  show dump_data .ALL no_hidden_header e = _
  rw [dump_data_eq]
  unfold compose preamble epilogue
  rw [if_neg (show ¬ Flag.ALL = .HEADER from Flag.noConfusion), if_pos hc,
    if_neg (show ¬ Flag.ALL = .NO_BODY from Flag.noConfusion), hp, he]
  simp

/-- Blank lines are not hidden. -/
theorem dump_header_blanks (no_hidden_header : Bool) (hs blanks : MIME_Header_List)
    (hb : ∀ b ∈ blanks, is_blank b = true) :
    dump_header no_hidden_header (hs ++ blanks)
      = dump_header no_hidden_header hs ++ blanks.flatten := by
  rw [dump_header_filter, dump_header_filter, List.filter_append, List.flatten_append]
  congr 2
  refine List.filter_eq_self.mpr fun b hmem => ?_
  obtain ⟨c, s, rfl, hc⟩ := is_blank_cases (hb b hmem)
  have hne : deref (c :: s) ≠ HIDDEN_HEADER_CHAR := by
    show c ≠ HIDDEN_HEADER_CHAR
    rcases hc with rfl | rfl
    · decide
    · decide
  unfold is_hidden
  rw [decide_eq_false hne, Bool.and_false, Bool.and_false]
  rfl

/-- **Any run of lines** that is a leaf: its fields, and then the other lines as they
    were. -/
theorem export_parsed (no_hidden_header b : Bool) (lines : List Bytes)
    (hsep : separator_of (fields_of no_hidden_header lines) = [])
    (hmsg : is_message (fields_of no_hidden_header lines) = false) :
    (export_data (new.parse_lines no_hidden_header true lines) .ALL b).1
      = dump_header b (fields_of no_hidden_header lines) ++ (blank_lines lines).flatten
        ++ (content_lines lines).flatten := by
  have hblank := blank_lines_blank lines
  have hchild : (in_blanks (fields_of no_hidden_header lines) (blank_lines lines)).child_ = [] := by
    unfold in_blanks
    rw [hmsg]
    rfl
  rw [parse_message]
  by_cases hb : blank_lines lines = []
  · -- the header never ends
    rw [if_pos hb, export_leaf _ b rfl rfl rfl, hb, (field_lines_of_no_blank lines hb).2]
    simp [in_header, body, new]
  · rw [if_neg hb]
    cases hc : content_lines lines with
    | nil =>
        -- a header and nothing behind it
        rw [if_pos rfl, export_leaf _ b rfl rfl hchild, ← dump_header_blanks b _ _ hblank]
        rfl
    | cons l ls =>
        have hexport := export_leaf
          { in_content (fields_of no_hidden_header lines) (blank_lines lines) with
            body_ := some (l :: ls).flatten } b rfl rfl hchild
        rw [if_neg (List.cons_ne_nil l ls), parse_leaf no_hidden_header _ _ hsep hmsg hblank,
          hexport, ← dump_header_blanks b _ _ hblank]
        rfl

/-- What the parsed header says of the fields. -/
theorem leaf_of_lines (no_hidden_header with_body : Bool) (lines : List Bytes)
    (hbound : (new.parse_lines no_hidden_header with_body lines).get_boundary = [])
    (hct : (new.parse_lines no_hidden_header with_body lines).get_content_type
      ≠ lit "message/rfc822") :
    separator_of (fields_of no_hidden_header lines) = [] ∧
      is_message (fields_of no_hidden_header lines) = false :=
  leaf_of_header _ _ _ (header_of_message no_hidden_header with_body lines)
    (blank_lines_blank lines) hbound hct

/-- With hidden fields kept, it comes back as it was. -/
theorem parse_export_leaf (lines : List Bytes)
    (hfirst : ∀ l ls, lines = l :: ls → deref l ≠ TAB ∧ deref l ≠ SP)
    (hbound : (new.parse_lines false true lines).get_boundary = [])
    (hct : (new.parse_lines false true lines).get_content_type ≠ lit "message/rfc822") :
    (export_data (new.parse_lines false true lines) .ALL false).1 = lines.flatten := by
  have hfields : (fields_of false lines).flatten = (field_lines lines).flatten := by
    apply fields_flatten (field_lines lines)
    intro l ls hl
    cases lines with
    | nil => exact absurd hl (by simp [field_lines])
    | cons a as =>
        have ha : a = l := by
          unfold field_lines at hl
          rw [List.takeWhile_cons] at hl
          split at hl
          · exact (List.cons.inj hl).1
          · exact absurd hl (by simp)
        exact ha ▸ hfirst a as rfl
  have hsplit : lines.flatten
      = (field_lines lines).flatten ++ (blank_lines lines).flatten
        ++ (content_lines lines).flatten := by
    rw [← List.flatten_append, ← List.flatten_append, ← lines_split]
  obtain ⟨hsep, hmsg⟩ := leaf_of_lines false true lines hbound hct
  rw [export_parsed false false lines hsep hmsg, dump_header_all, hfields, hsplit]

/-! ## §2. Import and export. -/

/-- **Import then export gives the input back**, byte for byte, when the input
    does not begin with a blank and is read as a single part: whatever its line
    breaks, NULs and blank lines, and whether or not its header or its last
    line ends. -/
theorem import_export_lossless (x : Bytes) (hx : x ≠ [])
    (hfirst : x.head? ≠ some SP ∧ x.head? ≠ some TAB)
    (hbound : (import_data x .ALL false).1.get_boundary = [])
    (hct : (import_data x .ALL false).1.get_content_type ≠ lit "message/rfc822") :
    (export_data (import_data x .ALL false).1 .ALL false).1 = x := by
  have hlines := import_data_lines .ALL false Flag.noConfusion x hx
  rw [hlines] at hbound hct ⊢
  rw [show with_body .ALL = true from rfl] at hbound hct ⊢
  rw [parse_export_leaf _ ?_ hbound hct, all_lines_flatten]
  intro l ls hl
  obtain ⟨l', ls', hl', _, hderef⟩ := all_lines_head (get_line_delimiter x) x hx
  rw [hl'] at hl
  obtain ⟨rfl, _⟩ := List.cons.inj hl
  rw [hderef]
  cases x with
  | nil => exact absurd rfl hx
  | cons b x =>
      refine ⟨?_, ?_⟩
      · intro heq
        subst heq
        exact hfirst.2 rfl
      · intro heq
        subst heq
        exact hfirst.1 rfl

/-- "A:b", a bare CR inside, LF line breaks, two blank lines and an unfinished body. -/
theorem import_export_lossless_mixed :
    (export_data (import_data (lit "A:b\rc\nD:e\n\n\nx") .ALL false).1 .ALL false).1
      = lit "A:b\rc\nD:e\n\n\nx" := by
  have he := import_data_lines .ALL false Flag.noConfusion (lit "A:b\rc\nD:e\n\n\nx") (by decide)
  refine import_export_lossless (lit "A:b\rc\nD:e\n\n\nx") (by decide) (by decide) ?_ ?_
  · rw [he]
    decide
  · rw [he]
    decide

end Aos
