/-
  Aos.Mime.Header — the lines of a message as fields, blank lines and content.

  The lines up to the first blank one make the header fields, the blank lines
  behind them are kept in the header too, and the first line after those is
  the first line of the content.

  Main results:
    • `parse_fields`, `parse_blanks`, `parse_content` — what the three runs of
      lines make of a fresh entity;
    • `content_lines_keep` — content lines leave the header alone;
    • `parse_leaf` — the content of a leaf is its body, byte for byte.
-/
import Aos.Mime.Parse

namespace Aos

open MIME_Entity

variable (no_hidden_header with_body : Bool)

/-! ## §1. Three runs of lines. -/

/-- The fields that lines make of a header. -/
def add_fields (hs : MIME_Header_List) (lines : List Bytes) : MIME_Header_List :=
  lines.foldl (add_field no_hidden_header) hs

/-- Fields: up to the first blank line. -/
def field_lines (lines : List Bytes) : List Bytes := lines.takeWhile (fun l => ! is_blank l)

/-- Blank lines: the run behind the fields. -/
def blank_lines (lines : List Bytes) : List Bytes :=
  (lines.dropWhile (fun l => ! is_blank l)).takeWhile is_blank

/-- Content: what comes then. -/
def content_lines (lines : List Bytes) : List Bytes :=
  (lines.dropWhile (fun l => ! is_blank l)).dropWhile is_blank

theorem lines_split (lines : List Bytes) :
    lines = field_lines lines ++ blank_lines lines ++ content_lines lines := by
  unfold field_lines blank_lines content_lines
  rw [List.append_assoc, List.takeWhile_append_dropWhile, List.takeWhile_append_dropWhile]

theorem field_lines_not_blank (lines : List Bytes) :
    ∀ l ∈ field_lines lines, is_blank l = false := by
  intro l hl
  simpa using List.mem_takeWhile_imp hl

theorem blank_lines_blank (lines : List Bytes) : ∀ l ∈ blank_lines lines, is_blank l = true := by
  intro l hl
  exact List.mem_takeWhile_imp hl

theorem content_lines_cons (lines : List Bytes) (l : Bytes) (ls : List Bytes)
    (h : content_lines lines = l :: ls) : is_blank l = false ∧ blank_lines lines ≠ [] := by
  have hl : is_blank l = false := by
    have := List.head?_dropWhile_not is_blank (lines.dropWhile (fun l => ! is_blank l))
    unfold content_lines at h
    rw [h] at this
    simpa using this
  refine ⟨hl, ?_⟩
  intro hb
  -- without a blank line the fields go on to the end
  unfold blank_lines at hb
  unfold content_lines at h
  cases hd : lines.dropWhile (fun l => ! is_blank l) with
  | nil => rw [hd] at h; exact absurd h (by simp)
  | cons a as =>
      have ha := List.head?_dropWhile_not (fun l => ! is_blank l) lines
      rw [hd] at ha hb
      have hblank : is_blank a = true := by simpa using ha
      rw [List.takeWhile_cons, if_pos hblank] at hb
      exact absurd hb (by simp)

/-- Without a blank line there are only fields. -/
theorem field_lines_of_no_blank (lines : List Bytes) (hb : blank_lines lines = []) :
    field_lines lines = lines ∧ content_lines lines = [] := by
  have hc : content_lines lines = [] := by
    cases hc : content_lines lines with
    | nil => rfl
    | cons l ls => exact absurd hb (content_lines_cons lines l ls hc).2
  have hsplit := lines_split lines
  rw [hb, hc, List.append_nil, List.append_nil] at hsplit
  exact ⟨hsplit.symm, hc⟩

theorem parse_fields (lines : List Bytes) (h : ∀ l ∈ lines, is_blank l = false) :
    ∀ hs, (in_header hs).parse_lines no_hidden_header with_body lines
      = in_header (add_fields no_hidden_header hs lines) := by
  induction lines with
  | nil => intro hs; rfl
  | cons l lines ih =>
      intro hs
      rw [parse_lines_cons, parse_line_in_header _ _ _ _ (h l List.mem_cons_self),
        ih (fun l' hl' => h l' (List.mem_cons_of_mem l hl'))]
      rfl

theorem parse_more_blanks (lines : List Bytes) (h : ∀ l ∈ lines, is_blank l = true)
    (hs : MIME_Header_List) :
    ∀ blanks, (in_blanks hs blanks).parse_lines no_hidden_header with_body lines
      = in_blanks hs (blanks ++ lines) := by
  induction lines with
  | nil => intro blanks; rw [List.append_nil]; rfl
  | cons l lines ih =>
      intro blanks
      rw [parse_lines_cons, parse_line_next_blank _ _ _ _ _ (h l List.mem_cons_self),
        ih (fun l' hl' => h l' (List.mem_cons_of_mem l hl')), List.append_assoc,
        List.singleton_append]

/-- Blank lines end the fields. -/
theorem parse_blanks (lines : List Bytes) (hne : lines ≠ []) (h : ∀ l ∈ lines, is_blank l = true)
    (hs : MIME_Header_List) :
    (in_header hs).parse_lines no_hidden_header with_body lines = in_blanks hs lines := by
  cases lines with
  | nil => exact absurd rfl hne
  | cons l lines =>
      rw [parse_lines_cons, parse_line_first_blank _ _ _ _ (h l List.mem_cons_self),
        parse_more_blanks _ _ _ (fun l' hl' => h l' (List.mem_cons_of_mem l hl')),
        List.singleton_append]

/-- The first content line ends the blank ones. -/
theorem parse_content (hs blanks : MIME_Header_List) (l : Bytes) (lines : List Bytes)
    (h : is_blank l = false) :
    (in_blanks hs blanks).parse_lines no_hidden_header with_body (l :: lines)
      = (in_content hs blanks).parse_lines no_hidden_header with_body (l :: lines) := by
  rw [parse_lines_cons, parse_line_first_content _ _ _ _ _ h, parse_lines_cons]

/-- The fields of a message. -/
def fields_of (lines : List Bytes) : MIME_Header_List :=
  add_fields no_hidden_header [] (field_lines lines)

/-- **All lines of a message.** -/
theorem parse_message (lines : List Bytes) :
    new.parse_lines no_hidden_header with_body lines =
      if blank_lines lines = [] then in_header (fields_of no_hidden_header lines)
      else if content_lines lines = [] then
        in_blanks (fields_of no_hidden_header lines) (blank_lines lines)
      else
        (in_content (fields_of no_hidden_header lines) (blank_lines lines)).parse_lines
          no_hidden_header with_body (content_lines lines) := by
  have hf := parse_fields no_hidden_header with_body (field_lines lines)
    (field_lines_not_blank lines) []
  -- the lines are the three runs one after the other
  have hrun : new.parse_lines no_hidden_header with_body lines
      = ((in_header (fields_of no_hidden_header lines)).parse_lines no_hidden_header with_body
          (blank_lines lines)).parse_lines no_hidden_header with_body (content_lines lines) := by
    rw [fields_of, ← hf, ← new_eq_in_header, ← parse_lines_append, ← parse_lines_append,
      ← List.append_assoc, ← lines_split]
  rw [hrun]
  by_cases hb : blank_lines lines = []
  · rw [if_pos hb, hb, (field_lines_of_no_blank lines hb).2]
    rfl
  · rw [if_neg hb, parse_blanks _ _ _ hb (blank_lines_blank lines)]
    cases hc : content_lines lines with
    | nil => rw [if_pos rfl, parse_lines_nil]
    | cons l ls =>
        rw [if_neg (List.cons_ne_nil l ls),
          parse_content _ _ _ _ _ _ (content_lines_cons lines l ls hc).1]

/-! ## §2. No byte of the header is lost. -/

theorem append_to_last_flatten (line : Bytes) (hs : MIME_Header_List) (h : hs ≠ []) :
    (append_to_last line hs).flatten = hs.flatten ++ line ∧ append_to_last line hs ≠ [] := by
  obtain ⟨init, last, rfl⟩ := (List.eq_nil_or_concat' hs).resolve_left h
  rw [append_to_last_concat]
  refine ⟨?_, by simp⟩
  simp

/-- With hidden fields kept, a line is lost only in front of the first field. -/
theorem add_field_flatten (hs : MIME_Header_List) (line : Bytes)
    (h : hs ≠ [] ∨ deref line ≠ TAB ∧ deref line ≠ SP) :
    (add_field false hs line).flatten = hs.flatten ++ line ∧ add_field false hs line ≠ [] := by
  unfold add_field
  by_cases hcont : deref line = TAB ∨ deref line = SP
  · -- a folded line has a field to be appended to
    have hhs : hs ≠ [] := by
      rcases h with h | h
      · exact h
      · rcases hcont with hcont | hcont
        · exact absurd hcont h.1
        · exact absurd hcont h.2
    rw [if_pos hcont, if_pos hhs]
    exact append_to_last_flatten line hs hhs
  · rw [if_neg hcont, if_pos (Or.inl rfl)]
    refine ⟨?_, by simp⟩
    simp

theorem add_fields_flatten (lines : List Bytes) :
    ∀ hs : MIME_Header_List, hs ≠ [] → (add_fields false hs lines).flatten
      = hs.flatten ++ lines.flatten ∧ add_fields false hs lines ≠ [] := by
  induction lines with
  | nil => intro hs hhs; exact ⟨(List.append_nil _).symm, hhs⟩
  | cons l lines ih =>
      intro hs hhs
      obtain ⟨hflat, hne⟩ := add_field_flatten hs l (Or.inl hhs)
      obtain ⟨hrest, hne'⟩ := ih _ hne
      refine ⟨?_, hne'⟩
      show (add_fields false (add_field false hs l) lines).flatten = _
      rw [hrest, hflat, List.flatten_cons, List.append_assoc]

/-- **The fields are the header lines**, when the first of them is no continuation. -/
theorem fields_flatten (lines : List Bytes)
    (h : ∀ l ls, lines = l :: ls → deref l ≠ TAB ∧ deref l ≠ SP) :
    (add_fields false [] lines).flatten = lines.flatten := by
  cases lines with
  | nil => rfl
  | cons l lines =>
      obtain ⟨hflat, hne⟩ := add_field_flatten [] l (Or.inr (h l lines rfl))
      show (add_fields false (add_field false [] l) lines).flatten = _
      rw [(add_fields_flatten lines _ hne).1, hflat]
      rfl

/-- Folded lines lengthen the last field. -/
theorem add_continuations (conts : List Bytes) (h : ∀ c ∈ conts, deref c = SP ∨ deref c = TAB)
    (hs : MIME_Header_List) : ∀ field, add_fields no_hidden_header (hs ++ [field]) conts
      = hs ++ [field ++ conts.flatten] := by
  induction conts with
  | nil =>
      intro field
      rw [List.flatten_nil, List.append_nil]
      rfl
  | cons c conts ih =>
      intro field
      have hc : deref c = TAB ∨ deref c = SP := (h c List.mem_cons_self).symm
      have hstep : add_field no_hidden_header (hs ++ [field]) c = hs ++ [field ++ c] := by
        unfold add_field
        rw [if_pos hc, if_pos (by simp), append_to_last_concat]
      show add_fields no_hidden_header (add_field no_hidden_header (hs ++ [field]) c) conts = _
      rw [hstep, ih (fun c' hc' => h c' (List.mem_cons_of_mem c hc')), List.flatten_cons,
        List.append_assoc]

/-! ## §3. Content lines. -/

/-- A content line leaves the header and the separator alone, and the parser in the content. -/
theorem parse_content_line_keep (e : MIME_Entity) (line : Bytes) (fed : List MIME_Entity)
    (h : 2 ≤ e.pstate_.val) :
    let e' := e.parse_content_line line with_body fed
    e'.header_ = e.header_ ∧ e'.separator_ = e.separator_ ∧ e'.status_ = e.status_ ∧
      2 ≤ e'.pstate_.val := by
  unfold parse_content_line
  dsimp only
  by_cases hsep : e.separator_ ≠ []
  · rw [if_pos hsep]
    by_cases hb : strncmp line e.separator_ e.separator_.length = 0
    · -- a boundary: only the state and the children change
      rw [if_pos hb]
      by_cases hend : line.length ≥ e.separator_.length + 2
          ∧ line.getD e.separator_.length NUL = line.getD (e.separator_.length + 1) NUL
          ∧ line.getD e.separator_.length NUL = 45
      · rw [if_pos hend]
        exact ⟨rfl, rfl, rfl, (by decide : 2 ≤ Parse.BOUNDARY_END.val)⟩
      · rw [if_neg hend]
        by_cases hdone : e.pstate_ = .HEADER_DONE
        · rw [if_pos hdone]
          exact ⟨rfl, rfl, rfl, (by decide : 2 ≤ Parse.BOUNDARY.val)⟩
        · rw [if_neg hdone]
          split
          · exact ⟨rfl, rfl, rfl, h⟩
          · exact ⟨rfl, rfl, rfl, h⟩
    · -- a line of the preamble, the epilogue or a part
      rw [if_neg hb]
      split
      · exact ⟨rfl, rfl, rfl, h⟩
      · split
        · exact ⟨rfl, rfl, rfl, h⟩
        · split
          · exact ⟨rfl, rfl, rfl, h⟩
          · exact ⟨rfl, rfl, rfl, h⟩
  · -- a line of an enclosed message or of a body
    rw [if_neg hsep]
    split
    · split
      · exact ⟨rfl, rfl, rfl, h⟩
      · exact ⟨rfl, rfl, rfl, h⟩
    · split
      · exact ⟨rfl, rfl, rfl, h⟩
      · exact ⟨rfl, rfl, rfl, h⟩

/-- **Content lines leave the header alone.** -/
theorem content_lines_keep (lines : List Bytes) :
    ∀ e : MIME_Entity, 2 ≤ e.pstate_.val →
      (e.parse_lines no_hidden_header with_body lines).header_ = e.header_ ∧
      (e.parse_lines no_hidden_header with_body lines).separator_ = e.separator_ ∧
      2 ≤ (e.parse_lines no_hidden_header with_body lines).pstate_.val := by
  induction lines with
  | nil => intro e h; exact ⟨rfl, rfl, h⟩
  | cons l lines ih =>
      intro e h
      -- the line is a content line, and so are the later ones
      have hstep := parse_content_line_keep with_body e l
        (parse_last_child l no_hidden_header with_body e.child_) h
      rw [← parse_line_content no_hidden_header with_body e l h] at hstep
      obtain ⟨hh, hs, _, hp⟩ := hstep
      rw [parse_lines_cons]
      obtain ⟨hh', hs', hp'⟩ := ih _ hp
      exact ⟨hh'.trans hh, hs'.trans hs, hp'⟩

/-- The header of a message. -/
theorem header_of_message (lines : List Bytes) :
    (new.parse_lines no_hidden_header with_body lines).header_
      = fields_of no_hidden_header lines ++ blank_lines lines := by
  rw [parse_message]
  by_cases hb : blank_lines lines = []
  · rw [if_pos hb, hb, List.append_nil]
    rfl
  · rw [if_neg hb]
    by_cases hc : content_lines lines = []
    · rw [if_pos hc]
      rfl
    · rw [if_neg hc]
      exact (content_lines_keep no_hidden_header with_body _ (in_content _ _) le_rfl).1

/-- Lines that an entity collects in one of its texts. -/
theorem parse_text (put : Option Bytes → MIME_Entity) (ls : List Bytes)
    (hput : ∀ l ∈ ls, ∀ s, (put s).parse_line l no_hidden_header true
      = put (some (s.getD [] ++ l))) :
    ∀ s : Option Bytes, ∃ s' : Option Bytes, s'.getD [] = s.getD [] ++ ls.flatten ∧
      (put s).parse_lines no_hidden_header true ls = put s' := by
  induction ls with
  | nil =>
      intro s
      exact ⟨s, by rw [List.flatten_nil, List.append_nil], rfl⟩
  | cons l ls ih =>
      intro s
      obtain ⟨s', hs', hrest⟩ :=
        ih (fun l' hl' => hput l' (List.mem_cons_of_mem l hl')) (some (s.getD [] ++ l))
      refine ⟨s', ?_, ?_⟩
      · rw [hs', Option.getD_some, List.flatten_cons, List.append_assoc]
      · rw [parse_lines_cons, hput l List.mem_cons_self, hrest]

/-- The lines of a leaf's body. -/
theorem parse_leaf_lines (e : MIME_Entity) (h : 2 ≤ e.pstate_.val) (hsep : e.separator_ = [])
    (hct : e.get_content_type ≠ lit "message/rfc822") (lines : List Bytes) :
    ∀ body : Bytes,
      ({ e with body_ := some body } : MIME_Entity).parse_lines no_hidden_header true lines
        = { e with body_ := some (body ++ lines.flatten) } := by
  induction lines with
  | nil =>
      intro body
      rw [List.flatten_nil, List.append_nil]
      rfl
  | cons l lines ih =>
      intro body
      have hstep : ({ e with body_ := some body } : MIME_Entity).parse_line l no_hidden_header true
          = { e with body_ := some (body ++ l) } := by
        rw [parse_line_content no_hidden_header true { e with body_ := some body } l h,
          parse_content_leaf true { e with body_ := some body } l _ hsep hct, if_pos rfl]
        rfl
      rw [parse_lines_cons, hstep, ih, List.flatten_cons, List.append_assoc]

/-- **A leaf's content is its body.** -/
theorem parse_leaf (hs blanks : MIME_Header_List) (hsep : separator_of hs = [])
    (hmsg : is_message hs = false) (hb : ∀ b ∈ blanks, is_blank b = true) (l : Bytes)
    (lines : List Bytes) :
    (in_content hs blanks).parse_lines no_hidden_header true (l :: lines)
      = { in_content hs blanks with body_ := some (l :: lines).flatten } := by
  have hct : (in_content hs blanks).get_content_type ≠ lit "message/rfc822" := by
    rw [get_content_type_blanks hs blanks _ rfl hb]
    exact of_decide_eq_false hmsg
  have hstep : (in_content hs blanks).parse_line l no_hidden_header true
      = { in_content hs blanks with body_ := some l } := by
    rw [parse_line_content no_hidden_header true (in_content hs blanks) l le_rfl,
      parse_content_leaf true (in_content hs blanks) l _ hsep hct, if_pos rfl]
    rfl
  rw [parse_lines_cons, hstep,
    parse_leaf_lines _ (in_content hs blanks) le_rfl hsep hct lines l]
  rfl

/-- The header says that the entity is a leaf. -/
theorem leaf_of_header (hs blanks : MIME_Header_List) (e : MIME_Entity)
    (he : e.header_ = hs ++ blanks) (hb : ∀ b ∈ blanks, is_blank b = true)
    (hbound : e.get_boundary = []) (hct : e.get_content_type ≠ lit "message/rfc822") :
    separator_of hs = [] ∧ is_message hs = false := by
  rw [get_boundary_blanks hs blanks e he hb] at hbound
  rw [get_content_type_blanks hs blanks e he hb] at hct
  refine ⟨?_, decide_eq_false hct⟩
  unfold separator_of
  rw [if_neg (by rw [hbound]; simp), hbound]

end Aos
