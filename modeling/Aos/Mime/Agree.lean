/-
  Aos.Mime.Agree — where the importers agree.

  All three run the lines of their input through the same parser, and two
  things set them apart.  The importers of files guess the delimiter from the
  first buffer, which need not hold a line break.  And with the flag `HEADER`,
  `import_data` leaves its loop behind the line that has ended the header, and
  then parses that line again.

  Main results:
    • `headers_of_delimiters` — two delimiters that give one tree: the text is
      a lone CRLF, or one folded field by either of them;
    • `parse_twice_iff` — when parsing a line twice leaves no trace;
    • **`importers_agree_iff`** — when the importers build the same tree.
-/
import Aos.Mime.Header
import Aos.Mime.Import

namespace Aos

open Lib.Lines MIME_Entity

/-! ## §1. The header that lines make. -/

/-- A line that continues the field in front of it. -/
def is_continuation (line : Bytes) : Bool := deref line = TAB ∨ deref line = SP

section

variable (no_hidden_header with_body : Bool)

/-- What a header line does to the header. -/
theorem parse_header_line_cases (e : MIME_Entity) (line : Bytes) :
    let e' := e.parse_header_line line no_hidden_header
    e'.header_ = e.header_ ∨ e'.header_ = e.header_ ++ [line] ∨
      e.header_ ≠ [] ∧ e'.header_ = append_to_last line e.header_ := by
  unfold parse_header_line
  by_cases hp : e.pstate_ = .HEADER
  · rw [if_pos hp]
    by_cases hb : deref line = CR ∨ deref line = LF
    · rw [if_pos hb]
      -- the child of an enclosed message is no part of the header
      have hend : ∀ (p : Prop) [Decidable p] (e' : MIME_Entity),
          ((if p then e'.append_child new else e').append_header line).header_
            = e'.header_ ++ [line] := by
        intro p _ e'
        split
        · rfl
        · rfl
      exact Or.inr (Or.inl (hend _ _))
    · rw [if_neg hb]
      by_cases hcont : deref line = TAB ∨ deref line = SP
      · rw [if_pos hcont]
        by_cases hh : e.header_ ≠ []
        · rw [if_pos hh]
          exact Or.inr (Or.inr ⟨hh, rfl⟩)
        · rw [if_neg hh]
          exact Or.inl rfl
      · rw [if_neg hcont]
        by_cases hkeep : no_hidden_header = false ∨ deref line ≠ HIDDEN_HEADER_CHAR
        · rw [if_pos hkeep]
          exact Or.inr (Or.inl rfl)
        · rw [if_neg hkeep]
          exact Or.inl rfl
  · rw [if_neg hp]
    by_cases hb : e.pstate_ = .HEADER_CRLF ∧ (deref line = CR ∨ deref line = LF)
    · rw [if_pos hb]
      exact Or.inr (Or.inl rfl)
    · rw [if_neg hb]
      exact Or.inl rfl

/-- What one line does to the header of an entity. -/
theorem parse_line_header_cases (e : MIME_Entity) (line : Bytes) :
    let e' := e.parse_line line no_hidden_header with_body
    e'.header_ = e.header_ ∨ e'.header_ = e.header_ ++ [line] ∨
      e.header_ ≠ [] ∧ e'.header_ = append_to_last line e.header_ := by
  dsimp only
  by_cases hp : e.pstate_.val < 2
  · have hstep := parse_header_line_cases no_hidden_header e line
    have hline : (e.parse_line line no_hidden_header with_body).header_
        = (e.parse_header_line line no_hidden_header).header_ := by
      rw [parse_line_eq]
      dsimp only
      rw [if_pos hp]
      by_cases hdone : (e.parse_header_line line no_hidden_header).pstate_.val ≥ 2
      · rw [if_pos hdone]
        exact (parse_content_line_keep with_body _ line _ hdone).1
      · rw [if_neg hdone]
    rw [hline]
    exact hstep
  · have hdone : 2 ≤ e.pstate_.val := by omega
    rw [parse_line_content no_hidden_header with_body e line hdone]
    exact Or.inl (parse_content_line_keep with_body e line _ hdone).1

/-- A header whose strings all end with a whole line. -/
def ends_with (delimiter : Byte) (hs : MIME_Header_List) : Prop :=
  ∀ field ∈ hs, field.getLast? = some delimiter

/-- Whole lines make such a header. -/
theorem parse_lines_ends (delimiter : Byte) (lines : List Bytes)
    (hlines : ∀ l ∈ lines, IsLine delimiter l) :
    ∀ e : MIME_Entity, ends_with delimiter e.header_ →
      ends_with delimiter (e.parse_lines no_hidden_header with_body lines).header_ := by
  induction lines with
  | nil => intro e he; exact he
  | cons l lines ih =>
      intro e he
      have hl : l.getLast? = some delimiter := (hlines l List.mem_cons_self).getLast?
      rw [parse_lines_cons]
      apply ih (fun l' hl' => hlines l' (List.mem_cons_of_mem l hl')) _
      intro field hfield
      -- the header is as it was, or the line is a new string, or it lengthens the last one
      rcases parse_line_header_cases no_hidden_header with_body e l with h | h | ⟨hne, h⟩
      · rw [h] at hfield
        exact he field hfield
      · rw [h] at hfield
        rcases List.mem_append.mp hfield with hfield | hfield
        · exact he field hfield
        · rw [List.mem_singleton.mp hfield]
          exact hl
      · obtain ⟨init, last, hsplit⟩ := (List.eq_nil_or_concat' e.header_).resolve_left hne
        rw [h, hsplit, append_to_last_concat] at hfield
        rcases List.mem_append.mp hfield with hfield | hfield
        · exact he field (by rw [hsplit]; exact List.mem_append_left _ hfield)
        · have hlne : l ≠ [] := (hlines l List.mem_cons_self).ne_nil
          rw [List.mem_singleton.mp hfield, List.getLast?_append_of_ne_nil _ hlne]
          exact hl

/-- **All strings of the header but the last** end with the delimiter. -/
theorem header_ends (delimiter : Byte) (xs : Bytes) :
    ends_with delimiter
      (new.parse_lines no_hidden_header with_body (all_lines delimiter xs)).header_.dropLast := by
  have hwhole := parse_lines_ends no_hidden_header with_body delimiter (cut delimiter [] xs).1
    (cut_isLine delimiter xs [] List.not_mem_nil) new (fun f hf => absurd hf List.not_mem_nil)
  unfold all_lines
  rw [parse_lines_append, parse_lines_cons, parse_lines_nil]
  -- only the unfinished line is left, and it can reach the last string only
  generalize new.parse_lines no_hidden_header with_body (cut delimiter [] xs).1 = e at hwhole ⊢
  intro field hfield
  rcases parse_line_header_cases no_hidden_header with_body e (cut delimiter [] xs).2 with
    h | h | ⟨hne, h⟩
  · rw [h] at hfield
    exact hwhole field (List.dropLast_subset _ hfield)
  · rw [h, List.dropLast_concat] at hfield
    exact hwhole field hfield
  · obtain ⟨init, last, hsplit⟩ := (List.eq_nil_or_concat' e.header_).resolve_left hne
    rw [h, hsplit, append_to_last_concat, List.dropLast_concat] at hfield
    exact hwhole field (by rw [hsplit]; exact List.mem_append_left _ hfield)

/-! ## §2. Headers of at most one string. -/

theorem is_continuation_iff (line : Bytes) :
    is_continuation line = true ↔ deref line = TAB ∨ deref line = SP := decide_eq_true_iff

/-- A line that continues nothing is lost. -/
theorem add_fields_dropped (lines : List Bytes) (h : ∀ l ∈ lines, is_continuation l = true) :
    add_fields no_hidden_header [] lines = [] := by
  induction lines with
  | nil => rfl
  | cons l lines ih =>
      have hl := (is_continuation_iff l).mp (h l List.mem_cons_self)
      have hstep : add_field no_hidden_header [] l = [] := by
        unfold add_field
        rw [if_pos hl, if_neg (fun h => h rfl)]
      show add_fields no_hidden_header (add_field no_hidden_header [] l) lines = []
      rw [hstep]
      exact ih (fun l' hl' => h l' (List.mem_cons_of_mem l hl'))

theorem add_field_length (hs : MIME_Header_List) (line : Bytes) :
    hs.length ≤ (add_field no_hidden_header hs line).length := by
  unfold add_field
  by_cases hcont : deref line = TAB ∨ deref line = SP
  · rw [if_pos hcont]
    by_cases hne : hs ≠ []
    · obtain ⟨init, last, rfl⟩ := (List.eq_nil_or_concat' hs).resolve_left hne
      rw [if_pos hne, append_to_last_concat, List.length_append, List.length_append]
      rfl
    · rw [if_neg hne]
  · rw [if_neg hcont]
    split
    · rw [List.length_append]
      exact Nat.le_add_right _ _
    · exact le_rfl

theorem add_fields_length (lines : List Bytes) :
    ∀ hs : MIME_Header_List, hs.length ≤ (add_fields no_hidden_header hs lines).length := by
  induction lines with
  | nil => intro hs; exact le_rfl
  | cons l lines ih =>
      intro hs
      exact le_trans (add_field_length no_hidden_header hs l) (ih _)

/-- A line that starts a field, hidden fields kept. -/
theorem add_field_new (hs : MIME_Header_List) (line : Bytes)
    (h : is_continuation line = false) : add_field false hs line = hs ++ [line] := by
  unfold add_field
  rw [if_neg (of_decide_eq_false h), if_pos (Or.inl rfl)]

/-- Lines that make no field. -/
theorem add_fields_nil (lines : List Bytes) (h : add_fields false [] lines = []) :
    ∀ l ∈ lines, is_continuation l = true := by
  induction lines with
  | nil => intro l hl; exact absurd hl List.not_mem_nil
  | cons l lines ih =>
      by_cases hl : is_continuation l = true
      · have hstep : add_field false [] l = [] := add_fields_dropped false [l]
          (fun l' hl' => (List.mem_singleton.mp hl') ▸ hl)
        have hrest : add_fields false (add_field false [] l) lines = [] := h
        rw [hstep] at hrest
        intro l' hl'
        rcases List.mem_cons.mp hl' with rfl | hl'
        · exact hl
        · exact ih hrest l' hl'
      · -- the line starts a field, and a field is never taken back
        have hstep := add_field_new [] l (Bool.not_eq_true _ ▸ hl)
        have hlen := add_fields_length false lines (add_field false [] l)
        have hrest : add_fields false (add_field false [] l) lines = [] := h
        rw [hrest, hstep] at hlen
        exact absurd hlen (by simp)

/-- Lines that only lengthen a field. -/
theorem add_fields_one (lines : List Bytes) :
    ∀ first field : Bytes, add_fields false [first] lines = [field] →
      ∀ l ∈ lines, is_continuation l = true := by
  induction lines with
  | nil => intro _ _ _ l hl; exact absurd hl List.not_mem_nil
  | cons l lines ih =>
      intro first field h
      have hrest : add_fields false (add_field false [first] l) lines = [field] := h
      by_cases hl : is_continuation l = true
      · have hstep : add_field false [first] l = [first ++ l] := by
          unfold add_field
          rw [if_pos ((is_continuation_iff l).mp hl), if_pos (List.cons_ne_nil _ _)]
          rfl
        rw [hstep] at hrest
        intro l' hl'
        rcases List.mem_cons.mp hl' with rfl | hl'
        · exact hl
        · exact ih _ _ hrest l' hl'
      · -- a second field would stay
        have hlen := add_fields_length false lines (add_field false [first] l)
        rw [hrest, add_field_new [first] l (Bool.not_eq_true _ ▸ hl)] at hlen
        exact absurd hlen (by simp)

end

/-! ## §3. A text by its delimiter. -/

/-- By this delimiter, every line of the text but the first is a folded one.
    The last line is not empty then: the text does not end with the delimiter. -/
def folded (delimiter : Byte) (x : Bytes) : Prop :=
  ∀ l ∈ (all_lines delimiter x).tail, is_continuation l = true

/-- A line of the text is whole, or it is the last one. -/
theorem all_lines_line (delimiter : Byte) (x : Bytes) (P Q : List Bytes) (l : Bytes)
    (h : all_lines delimiter x = P ++ l :: Q) : IsLine delimiter l ∨ delimiter ∉ l ∧ Q = [] := by
  by_cases hQ : Q = []
  · refine Or.inr ⟨?_, hQ⟩
    subst hQ
    unfold all_lines at h
    rw [← (List.cons.inj (List.append_inj' h rfl).2).1]
    exact cut_carry delimiter x [] List.not_mem_nil
  · have hinit := all_lines_init delimiter x (P ++ [l]) Q (by rw [h]; simp) hQ
    exact Or.inl (hinit l (by simp))

/-- Whole lines make a text that is empty or ends with the delimiter. -/
theorem flatten_ends (delimiter : Byte) (P : List Bytes) (hP : ∀ l ∈ P, IsLine delimiter l) :
    (P.flatten = [] → P = []) ∧ (P.flatten = [] ∨ P.flatten.getLast? = some delimiter) := by
  by_cases hne : P = []
  · subst hne
    exact ⟨fun _ => rfl, Or.inl rfl⟩
  · obtain ⟨init, last, rfl⟩ := (List.eq_nil_or_concat' P).resolve_left hne
    have hlast := hP last (by simp)
    have hends : (init ++ [last]).flatten.getLast? = some delimiter := by
      rw [List.flatten_append, List.flatten_singleton,
        List.getLast?_append_of_ne_nil _ hlast.ne_nil]
      exact hlast.getLast?
    refine ⟨?_, Or.inr hends⟩
    intro hnil
    rw [hnil] at hends
    exact absurd hends (by simp)

theorem continuation_not_blank (line : Bytes) (h : is_continuation line = true) :
    is_blank line = false := by
  apply decide_eq_false
  rcases (is_continuation_iff line).mp h with h | h
  · rw [h]
    decide
  · rw [h]
    decide

theorem is_blank_congr {s t : Bytes} (h : deref s = deref t) : is_blank s = is_blank t := by
  unfold is_blank
  rw [h]

/-- A text of which no header is left. -/
theorem no_header (delimiter : Byte) (x : Bytes) (hx : x ≠ [])
    (h : (new.parse_lines false true (all_lines delimiter x)).header_ = []) :
    is_blank x = false ∧ folded delimiter x := by
  rw [header_of_message] at h
  obtain ⟨hf, hb⟩ := List.append_eq_nil_iff.mp h
  have hlines := (field_lines_of_no_blank _ hb).1
  have hcont := add_fields_nil _ hf
  rw [hlines] at hcont
  obtain ⟨l, ls, hl, _, hderef⟩ := all_lines_head delimiter x hx
  refine ⟨?_, ?_⟩
  · rw [← is_blank_congr hderef]
    exact continuation_not_blank l (hcont l (by rw [hl]; exact List.mem_cons_self))
  · intro l' hl'
    exact hcont l' (List.mem_of_mem_tail hl')

/-- The first line that starts a field, and what is lost in front of it. -/
theorem first_field_line (ls : List Bytes) (field : Bytes) (h : add_fields false [] ls = [field]) :
    ∃ P l Q, ls = P ++ l :: Q ∧ field = l ++ Q.flatten ∧ ∀ c ∈ Q, is_continuation c = true := by
  have hcut := List.takeWhile_append_dropWhile (p := is_continuation) (l := ls)
  have hlost : ∀ c ∈ ls.takeWhile is_continuation, is_continuation c = true :=
    fun c hc => List.mem_takeWhile_imp hc
  -- the folded lines in front are lost, whatever follows
  cases hK : ls.dropWhile is_continuation with
  | nil =>
      have hall : ∀ c ∈ ls, is_continuation c = true := by
        rw [← List.dropWhile_eq_nil_iff]
        exact hK
      rw [add_fields_dropped false ls hall] at h
      exact absurd h (List.cons_ne_nil field []).symm
  | cons l Q =>
      have hl : is_continuation l = false := by
        have hhead := List.head?_dropWhile_not is_continuation ls
        rw [hK] at hhead
        simpa using hhead
      rw [hK] at hcut
      have hstep : add_fields false [l] Q = [field] := by
        rw [← h, ← hcut]
        unfold add_fields
        rw [List.foldl_append, List.foldl_cons]
        show _ = List.foldl _ (add_field false (add_fields false [] _) l) Q
        rw [add_fields_dropped false _ hlost, add_field_new [] l hl, List.nil_append]
      have hQ := add_fields_one Q l field hstep
      have hcont := add_continuations false Q
        (fun c hc => ((is_continuation_iff c).mp (hQ c hc)).symm) [] l
      rw [List.nil_append, List.nil_append, hstep] at hcont
      exact ⟨_, l, Q, hcut.symm, List.singleton_inj.mp hcont, hQ⟩

/-- A text that is one field, but for the lines lost in front of it. -/
theorem one_header_field (delimiter : Byte) (x field : Bytes)
    (hb : blank_lines (all_lines delimiter x) = [])
    (h : fields_of false (all_lines delimiter x) = [field]) :
    ∃ D : Bytes, (D = [] ∨ D.getLast? = some delimiter) ∧ is_blank field = false ∧
      x = D ++ field ∧ (D = [] → folded delimiter x) := by
  have hflat := all_lines_flatten delimiter x
  have hnotblank := field_lines_not_blank (all_lines delimiter x)
  unfold fields_of at h
  rw [(field_lines_of_no_blank _ hb).1] at h hnotblank
  obtain ⟨P, l, Q, hA, hfield, hQ⟩ := first_field_line _ field h
  have hP := all_lines_init delimiter x P (l :: Q) hA (List.cons_ne_nil l Q)
  obtain ⟨hPnil, hends⟩ := flatten_ends delimiter P hP
  refine ⟨P.flatten, hends, ?_, ?_, ?_⟩
  · cases l with
    | nil =>
        -- an empty line is the last one
        rcases all_lines_line delimiter x P Q [] hA with hline | ⟨_, hnil⟩
        · exact absurd rfl hline.ne_nil
        · rw [hfield, hnil]
          rfl
    | cons b l =>
        rw [hfield, is_blank_congr (show deref (b :: l ++ Q.flatten) = deref (b :: l) from rfl)]
        exact hnotblank _ (by rw [hA]; simp)
  · rw [hA, List.flatten_append, List.flatten_cons, ← hfield] at hflat
    exact hflat.symm
  · intro hnil
    unfold folded
    rw [hA, hPnil hnil]
    exact hQ

/-- A text that is a blank line and a body, but for the lines lost in front. -/
theorem one_header_blank (delimiter : Byte) (x field : Bytes)
    (hf : fields_of false (all_lines delimiter x) = [])
    (hb : blank_lines (all_lines delimiter x) = [field]) :
    ∃ D : Bytes, (D = [] ∨ D.getLast? = some delimiter) ∧ is_blank field = true ∧
      x = D ++ field ++ (new.parse_lines false true (all_lines delimiter x)).body ∧
      (IsLine delimiter field ∨ delimiter ∉ field ∧
        (new.parse_lines false true (all_lines delimiter x)).body = []) := by
  have hflat := all_lines_flatten delimiter x
  have hsplit := lines_split (all_lines delimiter x)
  rw [hb, List.append_assoc, List.singleton_append] at hsplit
  have hblank := blank_lines_blank (all_lines delimiter x) field
    (by rw [hb]; exact List.mem_singleton_self field)
  -- no fields: the entity is a leaf, and the content is its body
  have hbody : (new.parse_lines false true (all_lines delimiter x)).body
      = (content_lines (all_lines delimiter x)).flatten := by
    rw [parse_message, hf, hb, if_neg (List.cons_ne_nil field [])]
    cases hc : content_lines (all_lines delimiter x) with
    | nil => rw [if_pos rfl]; rfl
    | cons l ls =>
        rw [if_neg (List.cons_ne_nil l ls), parse_leaf false [] [field] (by decide) (by decide)
          (fun b hb => (List.mem_singleton.mp hb) ▸ hblank)]
        rfl
  rw [hbody]
  have hinit := all_lines_init delimiter x _ _ hsplit (List.cons_ne_nil _ _)
  refine ⟨(field_lines (all_lines delimiter x)).flatten, (flatten_ends delimiter _ hinit).2,
    hblank, ?_, ?_⟩
  · have hx := congrArg List.flatten hsplit
    rw [hflat, List.flatten_append, List.flatten_cons, ← List.append_assoc] at hx
    exact hx
  · rcases all_lines_line delimiter x _ _ field hsplit with hline | ⟨hno, hnil⟩
    · exact Or.inl hline
    · exact Or.inr ⟨hno, by rw [hnil]; rfl⟩

/-- **A text of which one header string is left.**  It has lost some folded
    lines in front, and the string is a field that goes on to the end, or a
    blank line with the body behind it. -/
theorem one_header (delimiter : Byte) (x field : Bytes)
    (h : (new.parse_lines false true (all_lines delimiter x)).header_ = [field]) :
    ∃ D : Bytes, (D = [] ∨ D.getLast? = some delimiter) ∧
      (is_blank field = false ∧ x = D ++ field ∧ (D = [] → folded delimiter x) ∨
        is_blank field = true ∧
          x = D ++ field ++ (new.parse_lines false true (all_lines delimiter x)).body ∧
          (IsLine delimiter field ∨ delimiter ∉ field ∧
            (new.parse_lines false true (all_lines delimiter x)).body = [])) := by
  rw [header_of_message] at h
  by_cases hb : blank_lines (all_lines delimiter x) = []
  · rw [hb, List.append_nil] at h
    obtain ⟨D, hD, hfield⟩ := one_header_field delimiter x field hb h
    exact ⟨D, hD, Or.inl hfield⟩
  · obtain ⟨hf, hblank⟩ : fields_of false (all_lines delimiter x) = [] ∧
        blank_lines (all_lines delimiter x) = [field] := by
      cases hfields : fields_of false (all_lines delimiter x) with
      | nil => exact ⟨rfl, by rw [← h, hfields]; rfl⟩
      | cons f fs =>
          rw [hfields, List.cons_append] at h
          exact absurd (List.append_eq_nil_iff.mp (List.cons.inj h).2).2 hb
    obtain ⟨D, hD, hfield⟩ := one_header_blank delimiter x field hf hblank
    exact ⟨D, hD, Or.inr hfield⟩

/-- One field, folded by either delimiter. -/
def one_field (x : Bytes) : Prop :=
  is_blank x = false ∧ folded NO_DELIMITER x ∧ folded (get_line_delimiter x) x

/-- Two delimiters cannot both end a text. -/
theorem not_both_end {c d : Byte} (hcd : c ≠ d) (s : Bytes) (hc : s = [] ∨ s.getLast? = some c)
    (hd : s = [] ∨ s.getLast? = some d) : s = [] := by
  rcases hc with hc | hc
  · exact hc
  · rcases hd with hd | hd
    · exact hd
    · exact absurd (Option.some.inj (hc.symm.trans hd)) hcd

/-- **Two delimiters that give one tree.**  The text is one field by either of
    them, or the second makes it a single blank line. -/
theorem headers_of_delimiters {c d : Byte} (hcd : c ≠ d) (x : Bytes) (hx : x ≠ []) (hd : d ∈ x)
    (hheader : (new.parse_lines false true (all_lines c x)).header_
      = (new.parse_lines false true (all_lines d x)).header_)
    (hbody : (new.parse_lines false true (all_lines c x)).body
      = (new.parse_lines false true (all_lines d x)).body) :
    is_blank x = true ∧ IsLine d x ∨ is_blank x = false ∧ folded c x ∧ folded d x := by
  have hends := header_ends false true c x
  have hends' := header_ends false true d x
  rw [hheader] at hends
  match hh : (new.parse_lines false true (all_lines d x)).header_ with
  | [] =>
      -- all lines were folded ones
      rw [hh] at hheader
      obtain ⟨hblank, hfold⟩ := no_header c x hx hheader
      exact Or.inr ⟨hblank, hfold, (no_header d x hx hh).2⟩
  | [field] =>
      rw [hh] at hheader
      obtain ⟨D, hD, hc⟩ := one_header c x field hheader
      obtain ⟨D', hD', hd'⟩ := one_header d x field hh
      rw [hbody] at hc
      rcases hc with ⟨hb, hxc, hfold⟩ | ⟨hb, hxc, hline⟩
      · -- a field: what was lost in front of it is the same text for both
        rcases hd' with ⟨_, hxd, hfold'⟩ | ⟨hb', _⟩
        · have hDD : D = D' := List.append_cancel_right (hxc.symm.trans hxd)
          subst hDD
          have hnil := not_both_end hcd D hD hD'
          refine Or.inr ⟨?_, hfold hnil, hfold' hnil⟩
          rw [hxc, hnil]
          exact hb
        · rw [hb] at hb'
          exact absurd hb' (by decide)
      · -- a blank line and the body behind it
        rcases hd' with ⟨hb', _⟩ | ⟨_, hxd, hline'⟩
        · rw [hb] at hb'
          exact absurd hb' (by decide)
        · have hDD : D = D' := by
            have hfields : D ++ field = D' ++ field :=
              List.append_cancel_right (hxc.symm.trans hxd)
            exact List.append_cancel_right hfields
          subst hDD
          have hnil := not_both_end hcd D hD hD'
          rw [hnil, List.nil_append] at hxd
          rcases hline' with hline' | ⟨hno, hnb⟩
          · rcases hline with hline | ⟨_, hnb⟩
            · exact absurd (Option.some.inj (hline.getLast?.symm.trans hline'.getLast?)) hcd
            · rw [hnb, List.append_nil] at hxd
              refine Or.inl ⟨?_, ?_⟩
              · rw [hxd]
                exact hb
              · rw [hxd]
                exact hline'
          · rw [hnb, List.append_nil] at hxd
            exact absurd (hxd ▸ hd) hno
  | first :: second :: rest =>
      -- the first string would end with both
      rw [hh] at hends hends'
      have hc := hends first (by rw [List.dropLast_cons_cons]; exact List.mem_cons_self)
      have hd' := hends' first (by rw [List.dropLast_cons_cons]; exact List.mem_cons_self)
      exact absurd (Option.some.inj (hc.symm.trans hd')) hcd

/-! ## §4. A line parsed twice. -/

section

variable (no_hidden_header : Bool)

theorem append_self_ne {line : Bytes} (hne : line ≠ []) : line ++ line ≠ line := by
  intro h
  exact hne (List.append_right_eq_self.mp h)

/-- A fresh header takes no notice of this line. -/
def ignored (line : Bytes) : Prop :=
  is_continuation line = true ∨ no_hidden_header = true ∧ deref line = HIDDEN_HEADER_CHAR

/-- Behind a header with these fields, the first content line may be parsed a
    second time without a trace: it closes the parts, or the message it is
    handed to takes no notice of it. -/
def repeatable (fields : MIME_Header_List) (line : Bytes) : Prop :=
  if separator_of fields ≠ [] then
    is_boundary (separator_of fields) line = true ∧ is_boundary_end (separator_of fields) line = true
  else is_message fields = true ∧ ignored no_hidden_header line

theorem ignored_congr {s t : Bytes} (h : deref s = deref t) :
    ignored no_hidden_header s ↔ ignored no_hidden_header t := by
  unfold ignored is_continuation
  rw [h]

theorem add_field_ignored (line : Bytes) (h : ignored no_hidden_header line) :
    add_field no_hidden_header [] line = [] := by
  unfold add_field
  rcases h with h | ⟨h, h'⟩
  · rw [if_pos ((is_continuation_iff line).mp h), if_neg (fun h => h rfl)]
  · by_cases hcont : deref line = TAB ∨ deref line = SP
    · rw [if_pos hcont, if_neg (fun h => h rfl)]
    · rw [if_neg hcont, if_neg]
      intro hor
      rcases hor with hk | hk
      · rw [h] at hk
        exact absurd hk (by decide)
      · exact hk h'

theorem add_field_kept (hs : MIME_Header_List) (line : Bytes) (h : ¬ ignored no_hidden_header line) :
    add_field no_hidden_header hs line = hs ++ [line] := by
  unfold add_field
  unfold ignored at h
  rw [not_or] at h
  rw [if_neg (fun hc => h.1 ((is_continuation_iff line).mpr hc)), if_pos]
  by_cases hn : no_hidden_header = true
  · exact Or.inr (fun hd => h.2 ⟨hn, hd⟩)
  · exact Or.inl (Bool.not_eq_true _ ▸ hn)

/-- A line adds nothing to a fresh header, or adds itself each time. -/
theorem add_field_twice (line : Bytes) :
    add_field no_hidden_header (add_field no_hidden_header [] line) line
        = add_field no_hidden_header [] line ↔ ignored no_hidden_header line := by
  by_cases h : ignored no_hidden_header line
  · rw [add_field_ignored no_hidden_header line h, add_field_ignored no_hidden_header line h]
    exact iff_of_true rfl h
  · rw [add_field_kept no_hidden_header [] line h, add_field_kept no_hidden_header _ line h]
    exact iff_of_false (by simp) h

section

variable (fields blanks : MIME_Header_List) (line : Bytes)

/-- In front of the parts: only a closing boundary may be seen twice. -/
theorem parse_twice_multipart (hsep : separator_of fields ≠ []) (hne : line ≠ []) :
    (((in_content fields blanks).parse_line line no_hidden_header true).parse_line line
        no_hidden_header true).tree
      = ((in_content fields blanks).parse_line line no_hidden_header true).tree ↔
    is_boundary (separator_of fields) line = true ∧
      is_boundary_end (separator_of fields) line = true := by
  rw [parse_line_content no_hidden_header true (in_content fields blanks) line le_rfl]
  cases hb : is_boundary (separator_of fields) line with
  | true =>
      cases hend : is_boundary_end (separator_of fields) line with
      | true =>
          rw [parse_content_boundary_end true (in_content fields blanks) line _ hsep hb hend,
            parse_line_content no_hidden_header true
              { in_content fields blanks with pstate_ := .BOUNDARY_END } line
              (by decide : 2 ≤ Parse.BOUNDARY_END.val),
            parse_content_boundary_end true
              { in_content fields blanks with pstate_ := .BOUNDARY_END } line _ hsep hb hend]
          exact iff_of_true rfl ⟨rfl, rfl⟩
      | false =>
          -- a part is opened each time
          rw [parse_content_boundary true (in_content fields blanks) line _ hsep hb hend (Or.inl rfl),
            parse_line_content no_hidden_header true
              { in_content fields blanks with
                pstate_ := .BOUNDARY, child_ := (in_content fields blanks).child_ ++ [new] } line
              (by decide : 2 ≤ Parse.BOUNDARY.val),
            parse_content_boundary true
              { in_content fields blanks with
                pstate_ := .BOUNDARY, child_ := (in_content fields blanks).child_ ++ [new] } line _
              hsep hb hend (Or.inr rfl)]
          refine iff_of_false ?_ (fun h => Bool.false_ne_true h.2)
          intro h
          have hlen := congrArg (fun t => t.child.length) h
          rw [tree_eq, tree_eq] at hlen
          simp at hlen
  | false =>
      -- the preamble takes the line each time
      rw [parse_content_preamble true (in_content fields blanks) line _ hsep hb rfl,
        parse_line_content no_hidden_header true
          { in_content fields blanks with
            preamble_ := some ((in_content fields blanks).preamble ++ line) } line
          (by decide : 2 ≤ Parse.HEADER_DONE.val),
        parse_content_preamble true
          { in_content fields blanks with
            preamble_ := some ((in_content fields blanks).preamble ++ line) } line _ hsep hb rfl]
      refine iff_of_false ?_ (fun h => Bool.false_ne_true h.1)
      intro h
      have hpre := congrArg Tree.preamble h
      rw [tree_eq, tree_eq] at hpre
      exact append_self_ne hne hpre

/-- An enclosed message is given the line as a line of its header. -/
theorem parse_enclosed_line (hsep : separator_of fields = []) (hmsg : is_message fields = true)
    (hblanks : ∀ b ∈ blanks, is_blank b = true) (hline : is_blank line = false)
    (hs : MIME_Header_List) :
    ({ in_content fields blanks with child_ := [in_header hs] } : MIME_Entity).parse_line line
        no_hidden_header true
      = { in_content fields blanks with
          child_ := [in_header (add_field no_hidden_header hs line)] } := by
  have hct : ({ in_content fields blanks with child_ := [in_header hs] } :
      MIME_Entity).get_content_type = lit "message/rfc822" := by
    rw [get_content_type_blanks fields blanks _ rfl hblanks]
    exact of_decide_eq_true hmsg
  rw [parse_line_content no_hidden_header true
      { in_content fields blanks with child_ := [in_header hs] } line le_rfl,
    parse_content_message true { in_content fields blanks with child_ := [in_header hs] } line _
      hsep hct (List.cons_ne_nil _ _)]
  show ({ in_content fields blanks with
    child_ := [(in_header hs).parse_line line no_hidden_header true] } : MIME_Entity) = _
  rw [parse_line_in_header no_hidden_header true hs line hline]

/-- The enclosed message, of which nothing has been read. -/
theorem in_content_message (hmsg : is_message fields = true) :
    in_content fields blanks = { in_content fields blanks with child_ := [in_header []] } := by
  unfold in_content in_blanks
  rw [hmsg]
  rfl

theorem parse_twice_message (hsep : separator_of fields = []) (hmsg : is_message fields = true)
    (hblanks : ∀ b ∈ blanks, is_blank b = true) (hline : is_blank line = false) :
    (((in_content fields blanks).parse_line line no_hidden_header true).parse_line line
        no_hidden_header true).tree
      = ((in_content fields blanks).parse_line line no_hidden_header true).tree ↔
    ignored no_hidden_header line := by
  have hstep := parse_enclosed_line no_hidden_header fields blanks line hsep hmsg hblanks hline
  rw [in_content_message fields blanks hmsg, hstep, hstep, tree_eq, tree_eq, ← add_field_twice]
  constructor
  · intro h
    have hheaders := congrArg (fun t => t.child.map Tree.header) h
    simpa [tree_eq, in_header] using hheaders
  · intro h
    rw [h]

/-- The body of a leaf takes the line each time. -/
theorem parse_twice_leaf (hsep : separator_of fields = []) (hmsg : is_message fields = false)
    (hblanks : ∀ b ∈ blanks, is_blank b = true) (hne : line ≠ []) :
    (((in_content fields blanks).parse_line line no_hidden_header true).parse_line line
        no_hidden_header true).tree
      ≠ ((in_content fields blanks).parse_line line no_hidden_header true).tree := by
  have hone := parse_leaf no_hidden_header fields blanks hsep hmsg hblanks line []
  have htwo := parse_leaf no_hidden_header fields blanks hsep hmsg hblanks line [line]
  rw [parse_lines_cons, parse_lines_nil] at hone
  rw [parse_lines_cons, parse_lines_cons, parse_lines_nil] at htwo
  rw [htwo, hone]
  intro h
  have hbody := congrArg Tree.body h
  rw [tree_eq, tree_eq] at hbody
  have htext : [line, line].flatten = [line].flatten := hbody
  rw [List.flatten_cons, List.flatten_singleton] at htext
  exact append_self_ne hne htext

/-- **When a second parse of the first content line leaves no trace.** -/
theorem parse_twice_iff (hblanks : ∀ b ∈ blanks, is_blank b = true) (hne : line ≠ [])
    (hline : is_blank line = false) :
    (((in_content fields blanks).parse_line line no_hidden_header true).parse_line line
        no_hidden_header true).tree
      = ((in_content fields blanks).parse_line line no_hidden_header true).tree ↔
    repeatable no_hidden_header fields line := by
  unfold repeatable
  by_cases hsep : separator_of fields ≠ []
  · rw [if_pos hsep]
    exact parse_twice_multipart no_hidden_header fields blanks line hsep hne
  · rw [if_neg hsep]
    have hnosep : separator_of fields = [] := not_not.mp hsep
    cases hmsg : is_message fields with
    | true =>
        rw [parse_twice_message no_hidden_header fields blanks line hnosep hmsg hblanks hline]
        exact (and_iff_right rfl).symm
    | false =>
        refine iff_of_false ?_ (fun h => Bool.false_ne_true h.1)
        exact parse_twice_leaf no_hidden_header fields blanks line hnosep hmsg hblanks hne

end

end

/-! ## §5. The importers, line by line. -/

section

variable (flag : Flag) (no_hidden_header : Bool)

/-- No line of the text ends the header early. -/
def runs_to_end (flag : Flag) (delimiter : Byte) (x : Bytes) : Prop :=
  flag = .HEADER → content_lines (lines delimiter x) = []

/-- While the header is not finished, every line is parsed. -/
theorem feed_in_header (ls : List Bytes) :
    ∀ (e : MIME_Entity) (n : Int),
      (e.parse_lines no_hidden_header (with_body flag) ls).pstate_.val < 2 →
      (feed flag no_hidden_header e n ls).parsing = true ∧
      (feed flag no_hidden_header e n ls).e
        = e.parse_lines no_hidden_header (with_body flag) ls := by
  induction ls with
  | nil => intro e n _; exact ⟨rfl, rfl⟩
  | cons l ls ih =>
      intro e n h
      -- once done the header would be done at the end, too
      have hgo : ¬ stops flag (e.parse_line l no_hidden_header (with_body flag)) = true := by
        intro hstop
        have hdone := (content_lines_keep no_hidden_header (with_body flag) ls _
          (of_decide_eq_true hstop).2).2.2
        rw [parse_lines_cons] at h
        omega
      rw [feed, if_neg hgo, parse_lines_cons]
      exact ih _ _ h

theorem header_not_done (with_body : Bool) (ls : List Bytes) (h : content_lines ls = []) :
    (new.parse_lines no_hidden_header with_body ls).pstate_.val < 2 := by
  rw [parse_message, if_pos h]
  split
  · exact Nat.zero_lt_two
  · exact Nat.one_lt_two

/-- Reading to the end. -/
theorem read_stream_all (delimiter : Byte) (x : Bytes) (hrun : runs_to_end flag delimiter x) :
    let st := read_stream flag no_hidden_header delimiter [] new 0 x
    st.parsing = true ∧ st.e.parse_line st.line no_hidden_header (with_body flag)
      = new.parse_lines no_hidden_header (with_body flag) (all_lines delimiter x) := by
  by_cases hflag : flag = .HEADER
  · obtain ⟨hp, he⟩ := feed_in_header flag no_hidden_header (lines delimiter x) new 0
      (header_not_done no_hidden_header (with_body flag) _ (hrun hflag))
    unfold lines at hp he
    unfold read_stream all_lines
    dsimp only
    rw [if_pos hp, parse_lines_append, he]
    exact ⟨hp, rfl⟩
  · exact read_stream_to_end flag no_hidden_header delimiter hflag x

theorem import_data_all (x : Bytes) (hx : x ≠ [])
    (hrun : runs_to_end flag (get_line_delimiter x) x) :
    (import_data x flag no_hidden_header).1
      = new.parse_lines no_hidden_header (with_body flag)
          (all_lines (get_line_delimiter x) x) := by
  rw [import_data_eq flag no_hidden_header x hx]
  exact (read_stream_all flag no_hidden_header _ x hrun).2

theorem import_from_all (buf : Bytes) (bufs : List Bytes) (hbufs : ∀ b ∈ buf :: bufs, b ≠ [])
    (hrun : runs_to_end flag (get_line_delimiter buf) (buf :: bufs).flatten) :
    (import_from (buf :: bufs) flag no_hidden_header).1
      = new.parse_lines no_hidden_header (with_body flag)
          (all_lines (get_line_delimiter buf) (buf :: bufs).flatten) := by
  obtain ⟨hp, he⟩ := read_stream_all flag no_hidden_header _ _ hrun
  rw [import_buffers_eq flag no_hidden_header buf bufs hbufs]
  unfold finish
  dsimp only at hp he ⊢
  rw [if_pos hp]
  exact he

/-- What lines count for: their lengths, each as an `int`. -/
def count_lines (ls : List Bytes) : Int := (ls.map (fun l => toInt l.length)).sum

/-- While it goes on, all lines are counted. -/
theorem feed_count (ls : List Bytes) :
    ∀ (e : MIME_Entity) (n : Int), (feed flag no_hidden_header e n ls).parsing = true →
      (feed flag no_hidden_header e n ls).n_byte = n + count_lines ls := by
  induction ls with
  | nil => exact fun e n _ => (Int.add_zero n).symm
  | cons l ls ih =>
      intro e n hp
      rw [feed] at hp ⊢
      split_ifs at hp ⊢
      rw [ih _ _ hp, Int.add_assoc]
      unfold count_lines
      rw [List.map_cons, List.sum_cons]

/-- With the flag `HEADER` the first content line is the last one parsed, and not counted. -/
theorem feed_stops (ls : List Bytes) (line : Bytes) (rest : List Bytes)
    (hc : content_lines ls = line :: rest) :
    let st := feed .HEADER no_hidden_header new 0 ls
    st.parsing = false ∧ st.line = line ∧
      st.e = (in_content (fields_of no_hidden_header ls) (blank_lines ls)).parse_line line
        no_hidden_header true ∧
      st.n_byte = count_lines (field_lines ls ++ blank_lines ls) := by
  have hsplit := lines_split ls
  obtain ⟨hline, hblanks⟩ := content_lines_cons ls line rest hc
  have hheader : new.parse_lines no_hidden_header (with_body .HEADER) (field_lines ls ++ blank_lines ls)
      = in_blanks (fields_of no_hidden_header ls) (blank_lines ls) := by
    rw [parse_lines_append, new_eq_in_header, parse_fields _ _ _ (field_lines_not_blank ls),
      parse_blanks _ _ _ hblanks (blank_lines_blank ls)]
    rfl
  obtain ⟨hp, he⟩ := feed_in_header .HEADER no_hidden_header (field_lines ls ++ blank_lines ls)
    new 0 (by rw [hheader]; exact Nat.one_lt_two)
  rw [hheader] at he
  -- the content line takes the parser behind the header
  have hstop : stops .HEADER ((in_content (fields_of no_hidden_header ls)
      (blank_lines ls)).parse_line line no_hidden_header true) = true :=
    decide_eq_true ⟨rfl,
      (content_lines_keep no_hidden_header true [line] (in_content _ _) le_rfl).2.2⟩
  have hrun := feed_append .HEADER no_hidden_header (field_lines ls ++ blank_lines ls)
    (line :: rest) new 0
  rw [← hc, ← hsplit, hc] at hrun
  dsimp only at hrun
  have hcount := feed_count .HEADER no_hidden_header _ _ _ hp
  rw [Int.zero_add] at hcount
  rw [if_pos hp, he, feed, show with_body .HEADER = true from rfl,
    parse_line_first_content _ _ _ _ _ hline, if_pos hstop, hcount] at hrun
  rw [hrun]
  exact ⟨rfl, rfl, rfl, rfl⟩

theorem import_data_header (x : Bytes) (hx : x ≠ []) (line : Bytes) (rest : List Bytes)
    (hc : content_lines (lines (get_line_delimiter x) x) = line :: rest) :
    (import_data x .HEADER no_hidden_header).1
      = ((in_content (fields_of no_hidden_header (lines (get_line_delimiter x) x))
          (blank_lines (lines (get_line_delimiter x) x))).parse_line line
            no_hidden_header true).parse_line line no_hidden_header true := by
  obtain ⟨hp, hl, he, _⟩ := feed_stops no_hidden_header _ line rest hc
  rw [import_data_eq .HEADER no_hidden_header x hx]
  unfold lines at hp hl he
  unfold read_stream
  dsimp only
  rw [if_neg (by rw [hp]; exact Bool.false_ne_true), hl, he]
  rfl

theorem import_from_header (buf : Bytes) (bufs : List Bytes) (hbufs : ∀ b ∈ buf :: bufs, b ≠ [])
    (line : Bytes) (rest : List Bytes)
    (hc : content_lines (lines (get_line_delimiter buf) (buf :: bufs).flatten) = line :: rest) :
    (import_from (buf :: bufs) .HEADER no_hidden_header).1
      = (in_content
          (fields_of no_hidden_header (lines (get_line_delimiter buf) (buf :: bufs).flatten))
          (blank_lines (lines (get_line_delimiter buf) (buf :: bufs).flatten))).parse_line line
            no_hidden_header true := by
  obtain ⟨hp, hl, he, _⟩ := feed_stops no_hidden_header _ line rest hc
  rw [import_buffers_eq .HEADER no_hidden_header buf bufs hbufs]
  unfold lines at hp hl he
  unfold finish read_stream
  dsimp only
  have hstopped : ¬ (feed .HEADER no_hidden_header new 0
      (cut (get_line_delimiter buf) [] (buf :: bufs).flatten).1).parsing = true := by
    rw [hp]
    exact Bool.false_ne_true
  rw [if_neg hstopped, if_neg hstopped, he]
  rfl

end

/-! ## §6. Where they agree. -/

/-- The header is not ended by a line before the end of the text, or that line
    may be parsed twice. -/
def header_line_repeatable (no_hidden_header : Bool) (x : Bytes) : Prop :=
  ∀ line rest, content_lines (lines (get_line_delimiter x) x) = line :: rest →
    repeatable no_hidden_header (fields_of no_hidden_header (lines (get_line_delimiter x) x)) line

/-- The first buffer shows the delimiter of the text, or the text is read the
    same way by the one it shows. -/
def delimiter_suffices (first x : Bytes) : Prop :=
  get_line_delimiter first = get_line_delimiter x ∨ x = [CR, LF] ∨ one_field x

section

variable (flag : Flag) (no_hidden_header : Bool)

theorem no_content (ls : List Bytes) (h : ∀ l ∈ ls, is_blank l = false) : content_lines ls = [] := by
  have hnil : ls.dropWhile (fun l => ! is_blank l) = [] := by
    rw [List.dropWhile_eq_nil_iff]
    intro l hl
    rw [h l hl]
    rfl
  unfold content_lines
  rw [hnil]
  rfl

/-- A text that is one folded field has no blank line. -/
theorem folded_no_blank (delimiter : Byte) (x : Bytes) (hx : x ≠ []) (hb : is_blank x = false)
    (hf : folded delimiter x) : ∀ l ∈ all_lines delimiter x, is_blank l = false := by
  obtain ⟨l, ls, hl, _, hderef⟩ := all_lines_head delimiter x hx
  unfold folded at hf
  rw [hl] at hf ⊢
  intro l' hl'
  rcases List.mem_cons.mp hl' with rfl | hl'
  · rw [is_blank_congr hderef]
    exact hb
  · exact continuation_not_blank l' (hf l' hl')

theorem folded_runs_to_end (delimiter : Byte) (x : Bytes) (hx : x ≠ []) (hb : is_blank x = false)
    (hf : folded delimiter x) : content_lines (lines delimiter x) = [] := by
  apply no_content _
  intro l hl
  exact folded_no_blank delimiter x hx hb hf l (List.mem_append_left _ hl)

/-- **One folded field**, by whatever delimiter, is the whole text or nothing. -/
theorem parse_folded (with_body : Bool) (delimiter : Byte) (x : Bytes) (hx : x ≠ [])
    (hb : is_blank x = false) (hf : folded delimiter x) :
    new.parse_lines no_hidden_header with_body (all_lines delimiter x)
      = in_header (add_field no_hidden_header [] x) := by
  have hblank := folded_no_blank delimiter x hx hb hf
  have hflat := all_lines_flatten delimiter x
  obtain ⟨l, ls, hl, _, hderef⟩ := all_lines_head delimiter x hx
  unfold folded at hf
  rw [hl] at hf hblank hflat ⊢
  rw [new_eq_in_header, parse_fields _ _ _ hblank]
  show in_header (add_fields no_hidden_header (add_field no_hidden_header [] l) ls) = _
  by_cases hign : ignored no_hidden_header l
  · rw [add_field_ignored no_hidden_header l hign, add_fields_dropped no_hidden_header ls hf,
      add_field_ignored no_hidden_header x ((ignored_congr no_hidden_header hderef).mp hign)]
  · have hkeep : ¬ ignored no_hidden_header x :=
      fun h => hign ((ignored_congr no_hidden_header hderef).mpr h)
    have hcont := add_continuations no_hidden_header ls
      (fun c hc => ((is_continuation_iff c).mp (hf c hc)).symm) [] l
    rw [List.flatten_cons] at hflat
    rw [add_field_kept no_hidden_header [] l hign, add_field_kept no_hidden_header [] x hkeep,
      hcont, hflat]

/-- A lone CRLF is a blank line, whole or unfinished. -/
theorem parse_crlf (with_body : Bool) :
    (new.parse_lines no_hidden_header with_body (all_lines NO_DELIMITER [CR, LF])).tree
      = (new.parse_lines no_hidden_header with_body (all_lines LF [CR, LF])).tree := by
  cases no_hidden_header <;> cases with_body <;> rfl

/-- A buffer without a delimiter of its own. -/
theorem no_delimiter_of_ne (first rest : Bytes)
    (h : get_line_delimiter first ≠ get_line_delimiter (first ++ rest)) :
    get_line_delimiter first = NO_DELIMITER := by
  by_contra hd
  exact h (get_line_delimiter_append first rest hd).symm

end

section

variable (buf : Bytes) (bufs : List Bytes) (hbufs : ∀ b ∈ buf :: bufs, b ≠ [])

include hbufs

theorem buffers_ne_nil : (buf :: bufs).flatten ≠ [] := by
  rw [List.flatten_cons]
  exact List.append_ne_nil_of_left_ne_nil (hbufs buf List.mem_cons_self) _

/-- **With the delimiter of the text**, only the flag `HEADER` makes a difference. -/
theorem agree_same_delimiter (flag : Flag) (no_hidden_header : Bool)
    (hd : get_line_delimiter buf = get_line_delimiter (buf :: bufs).flatten) :
    (import_from (buf :: bufs) flag no_hidden_header).1.tree
        = (import_data (buf :: bufs).flatten flag no_hidden_header).1.tree ↔
      (flag = .HEADER → header_line_repeatable no_hidden_header (buf :: bufs).flatten) := by
  have hx := buffers_ne_nil buf bufs hbufs
  by_cases hrun : runs_to_end flag (get_line_delimiter buf) (buf :: bufs).flatten
  · -- no early end: the same lines are parsed
    rw [import_from_all flag no_hidden_header buf bufs hbufs hrun]
    rw [hd] at hrun
    rw [import_data_all flag no_hidden_header _ hx hrun, hd]
    refine iff_of_true rfl ?_
    intro hflag line rest hc
    rw [hrun hflag] at hc
    exact absurd hc.symm (List.cons_ne_nil line rest)
  · unfold runs_to_end at hrun
    rw [Classical.not_imp] at hrun
    -- an early end: `import_data` parses its last line again
    obtain ⟨rfl, hne⟩ := hrun
    obtain ⟨line, rest, hc⟩ := List.exists_cons_of_ne_nil hne
    rw [import_from_header no_hidden_header buf bufs hbufs line rest hc]
    rw [hd] at hc ⊢
    rw [import_data_header no_hidden_header _ hx line rest hc, eq_comm]
    have hmem : line ∈ lines (get_line_delimiter (buf :: bufs).flatten) (buf :: bufs).flatten := by
      rw [lines_split (lines _ _), hc]
      simp
    have hline := cut_isLine _ _ [] List.not_mem_nil line hmem
    rw [parse_twice_iff no_hidden_header _ _ line (blank_lines_blank _) hline.ne_nil
      (content_lines_cons _ line rest hc).1]
    constructor
    · intro h _ line' rest' hc'
      rw [hc] at hc'
      rw [← (List.cons.inj hc').1]
      exact h
    · intro h
      exact h rfl line rest hc

/-- **With another delimiter** they agree on a lone CRLF and on one folded field only. -/
theorem agree_other_delimiter
    (hd : get_line_delimiter buf ≠ get_line_delimiter (buf :: bufs).flatten)
    (h : (import_from (buf :: bufs) .ALL false).1.tree
        = (import_data (buf :: bufs).flatten .ALL false).1.tree) :
    (buf :: bufs).flatten = [CR, LF] ∨ one_field (buf :: bufs).flatten := by
  have hx := buffers_ne_nil buf bufs hbufs
  have hnone := no_delimiter_of_ne buf bufs.flatten hd
  have hdelim : get_line_delimiter (buf :: bufs).flatten ≠ NO_DELIMITER := by
    intro h'
    exact hd (hnone.trans h'.symm)
  rw [import_from_lines .ALL false Flag.noConfusion buf bufs hbufs,
    import_data_lines .ALL false Flag.noConfusion _ hx, tree_eq, tree_eq] at h
  -- a single blank line whose own delimiter ends it is a CRLF
  rcases headers_of_delimiters hd _ hx (get_line_delimiter_mem _ hdelim)
    (congrArg Tree.header h) (congrArg Tree.body h) with ⟨hb, hline⟩ | ⟨hb, hfold, hfold'⟩
  · refine Or.inl (eq_crlf_of_blank_line _ ?_ hdelim hline)
    obtain ⟨a, s, hs, ha⟩ := is_blank_cases hb
    rw [hs]
    rcases ha with rfl | rfl
    · exact Or.inl rfl
    · exact Or.inr rfl
  · rw [hnone] at hfold
    exact Or.inr ⟨hb, hfold, hfold'⟩

omit hbufs in
/-- A lone CRLF or one folded field, cut by either delimiter. -/
theorem content_lines_simple (delimiter : Byte) (x : Bytes) (hx : x ≠ [])
    (hdelim : delimiter = NO_DELIMITER ∨ delimiter = get_line_delimiter x)
    (h : x = [CR, LF] ∨ one_field x) : content_lines (lines delimiter x) = [] := by
  rcases h with rfl | ⟨hb, hf, hf'⟩
  · rcases hdelim with rfl | rfl
    · rfl
    · rfl
  · rcases hdelim with rfl | rfl
    · exact folded_runs_to_end _ x hx hb hf
    · exact folded_runs_to_end _ x hx hb hf'

omit hbufs in
theorem tree_simple (no_hidden_header with_body : Bool) (delimiter : Byte) (x : Bytes) (hx : x ≠ [])
    (hdelim : delimiter = NO_DELIMITER ∨ delimiter = get_line_delimiter x)
    (h : x = [CR, LF] ∨ one_field x) :
    (new.parse_lines no_hidden_header with_body (all_lines delimiter x)).tree
      = (new.parse_lines no_hidden_header with_body (all_lines (get_line_delimiter x) x)).tree := by
  rcases hdelim with rfl | rfl
  · rcases h with rfl | ⟨hb, hf, hf'⟩
    · exact parse_crlf no_hidden_header with_body
    · rw [parse_folded no_hidden_header with_body _ x hx hb hf,
        parse_folded no_hidden_header with_body _ x hx hb hf']
  · rfl

/-- **They agree with every flag** on such a text. -/
theorem agree_simple (flag : Flag) (no_hidden_header : Bool)
    (h : (buf :: bufs).flatten = [CR, LF] ∨ one_field (buf :: bufs).flatten) :
    (import_from (buf :: bufs) flag no_hidden_header).1.tree
      = (import_data (buf :: bufs).flatten flag no_hidden_header).1.tree := by
  have hx := buffers_ne_nil buf bufs hbufs
  have hdelim : get_line_delimiter buf = NO_DELIMITER ∨
      get_line_delimiter buf = get_line_delimiter (buf :: bufs).flatten := by
    by_cases hd : get_line_delimiter buf = get_line_delimiter (buf :: bufs).flatten
    · exact Or.inr hd
    · exact Or.inl (no_delimiter_of_ne buf bufs.flatten hd)
  rw [import_from_all flag no_hidden_header buf bufs hbufs
      (fun _ => content_lines_simple _ _ hx hdelim h),
    import_data_all flag no_hidden_header _ hx
      (fun _ => content_lines_simple _ _ hx (Or.inr rfl) h)]
  exact tree_simple no_hidden_header (with_body flag) _ _ hx hdelim h

/-- **When buffers are imported like their concatenation.** -/
theorem buffers_agree_iff :
    (∀ flag no_hidden_header, (import_from (buf :: bufs) flag no_hidden_header).1.tree
        = (import_data (buf :: bufs).flatten flag no_hidden_header).1.tree) ↔
      delimiter_suffices buf (buf :: bufs).flatten ∧
        ∀ no_hidden_header, header_line_repeatable no_hidden_header (buf :: bufs).flatten := by
  have hx := buffers_ne_nil buf bufs hbufs
  by_cases hd : get_line_delimiter buf = get_line_delimiter (buf :: bufs).flatten
  · have hsame := fun flag no_hidden_header =>
      agree_same_delimiter buf bufs hbufs flag no_hidden_header hd
    constructor
    · intro h
      exact ⟨Or.inl hd, fun no_hidden_header => (hsame .HEADER no_hidden_header).mp (h _ _) rfl⟩
    · intro hboth flag no_hidden_header
      obtain ⟨_, h⟩ := hboth
      exact (hsame flag no_hidden_header).mpr (fun _ => h no_hidden_header)
  · constructor
    · intro h
      have hsimple := agree_other_delimiter buf bufs hbufs hd (h .ALL false)
      refine ⟨Or.inr hsimple, ?_⟩
      intro no_hidden_header line rest hc
      rw [content_lines_simple _ _ hx (Or.inr rfl) hsimple] at hc
      exact absurd hc.symm (List.cons_ne_nil line rest)
    · intro hboth flag no_hidden_header
      obtain ⟨h, _⟩ := hboth
      exact agree_simple buf bufs hbufs flag no_hidden_header (h.resolve_left hd)

end

/-! ## §7. The three importers. -/

/-- The buffers a text may arrive in. -/
def cut_into (x : Bytes) (bufs : List Bytes) : Prop := (∀ buf ∈ bufs, buf ≠ []) ∧ bufs.flatten = x

theorem cut_into.cons {x : Bytes} (hx : x ≠ []) {bufs : List Bytes} (h : cut_into x bufs) :
    ∃ buf rest, bufs = buf :: rest := by
  cases bufs with
  | nil => exact absurd h.2.symm hx
  | cons buf rest => exact ⟨buf, rest, rfl⟩

theorem reads_cut_into (size : Nat) (hsize : size ≠ 0) (x : Bytes) : cut_into x (reads size x) :=
  ⟨reads_ne_nil size x, reads_flatten size hsize x⟩

/-- Files are imported like their content when the first read suffices. -/
theorem reads_agree_iff (size : Nat) (hsize : size ≠ 0) (x : Bytes) (hx : x ≠ []) :
    (∀ flag no_hidden_header, (import_from (reads size x) flag no_hidden_header).1.tree
        = (import_data x flag no_hidden_header).1.tree) ↔
      delimiter_suffices (x.take size) x ∧
        ∀ no_hidden_header, header_line_repeatable no_hidden_header x := by
  obtain ⟨hne, hflat⟩ := reads_cut_into size hsize x
  rw [reads_cons size hsize x hx] at hne hflat ⊢
  have h := buffers_agree_iff _ _ hne
  rw [hflat] at h
  exact h

/-- A longer first buffer suffices too. -/
theorem delimiter_suffices_longer (first second rest : Bytes)
    (h : delimiter_suffices first (first ++ (second ++ rest))) :
    delimiter_suffices (first ++ second) (first ++ (second ++ rest)) := by
  rcases h with h | h
  · refine Or.inl ?_
    by_contra hne
    rw [← List.append_assoc] at h hne
    have hnone := no_delimiter_of_ne (first ++ second) rest hne
    by_cases hf : get_line_delimiter first = NO_DELIMITER
    · rw [hnone, ← hf] at hne
      exact hne h
    · rw [get_line_delimiter_append first second hf] at hnone
      exact hf hnone
  · exact Or.inr h

/-- **When the cut does not matter**: no cut shows a delimiter, or none is needed. -/
theorem cuts_agree_iff (x : Bytes) (hx : x ≠ []) :
    (∀ bufs bufs', cut_into x bufs → cut_into x bufs' → ∀ flag no_hidden_header,
      (import_from bufs flag no_hidden_header).1.tree
        = (import_from bufs' flag no_hidden_header).1.tree) ↔
    get_line_delimiter x = NO_DELIMITER ∨ x = [CR, LF] ∨ one_field x := by
  constructor
  · intro h
    by_cases hd : get_line_delimiter x = NO_DELIMITER
    · exact Or.inl hd
    · -- a first buffer of one byte against the whole text
      refine Or.inr ?_
      match x with
      | [] => exact absurd rfl hx
      | [a] => exact absurd rfl hd
      | a :: b :: s =>
          have hcut : cut_into (a :: b :: s) [[a], b :: s] := ⟨by simp, by simp⟩
          have hwhole : cut_into (a :: b :: s) [a :: b :: s] := ⟨by simp, by simp⟩
          have htree := h _ _ hcut hwhole .ALL false
          rw [import_from_lines .ALL false Flag.noConfusion _ _ hwhole.1, hwhole.2,
            ← import_data_lines .ALL false Flag.noConfusion _ hx] at htree
          have hsimple := agree_other_delimiter [a] [b :: s] hcut.1
          rw [hcut.2] at hsimple
          exact hsimple (fun hsame => hd hsame.symm) htree
  · intro h bufs bufs' hcut hcut' flag no_hidden_header
    obtain ⟨buf, rest, rfl⟩ := hcut.cons hx
    obtain ⟨buf', rest', rfl⟩ := hcut'.cons hx
    rcases h with hd | h
    · -- every first buffer shows as little as the text
      have hnone : ∀ first rest : Bytes, first ++ rest = x →
          get_line_delimiter first = NO_DELIMITER := by
        intro first rest hsplit
        by_contra hne
        have happend := get_line_delimiter_append first rest hne
        rw [hsplit, hd] at happend
        exact hne happend.symm
      rw [import_buffers_eq flag no_hidden_header buf rest hcut.1,
        import_buffers_eq flag no_hidden_header buf' rest' hcut'.1, hcut.2, hcut'.2,
        hnone buf rest.flatten hcut.2, hnone buf' rest'.flatten hcut'.2]
    · -- both are what `import_data` makes of the text
      have hone := agree_simple buf rest hcut.1 flag no_hidden_header (by rw [hcut.2]; exact h)
      have htwo := agree_simple buf' rest' hcut'.1 flag no_hidden_header (by rw [hcut'.2]; exact h)
      rw [hone, htwo, hcut.2, hcut'.2]

/-- **When the importers agree**: the first read suffices to see the delimiter,
    and the line that ends the header may be parsed twice.  The same holds for
    any buffers, and the cut into buffers matters as soon as a delimiter is to
    be seen. -/
theorem importers_agree_iff (x : Bytes) (hx : x ≠ []) :
    ((∀ flag no_hidden_header,
        (import_file x flag no_hidden_header).1.tree = (import_data x flag no_hidden_header).1.tree ∧
        (import_file_handle x flag no_hidden_header).1.tree
          = (import_data x flag no_hidden_header).1.tree) ↔
      delimiter_suffices (x.take 4096) x ∧
        ∀ no_hidden_header, header_line_repeatable no_hidden_header x) ∧
    (∀ buf bufs, cut_into x (buf :: bufs) →
      ((∀ flag no_hidden_header, (import_from (buf :: bufs) flag no_hidden_header).1.tree
          = (import_data x flag no_hidden_header).1.tree) ↔
        delimiter_suffices buf x ∧
          ∀ no_hidden_header, header_line_repeatable no_hidden_header x)) ∧
    ((∀ bufs bufs', cut_into x bufs → cut_into x bufs' → ∀ flag no_hidden_header,
        (import_from bufs flag no_hidden_header).1.tree
          = (import_from bufs' flag no_hidden_header).1.tree) ↔
      get_line_delimiter x = NO_DELIMITER ∨ x = [CR, LF] ∨ one_field x) := by
  refine ⟨?_, ?_, cuts_agree_iff x hx⟩
  · have hfile := reads_agree_iff 4096 (by decide) x hx
    have hhandle := reads_agree_iff 16384 (by decide) x hx
    constructor
    · intro h
      exact hfile.mp (fun flag no_hidden_header => (h flag no_hidden_header).1)
    · intro hboth flag no_hidden_header
      obtain ⟨hdelim, hrepeat⟩ := hboth
      refine ⟨hfile.mpr ⟨hdelim, hrepeat⟩ flag no_hidden_header, ?_⟩
      refine hhandle.mpr ⟨?_, hrepeat⟩ flag no_hidden_header
      -- the longer read begins with the shorter one
      have htake : x.take 16384 = x.take 4096 ++ (x.drop 4096).take 12288 := by
        show x.take (4096 + 12288) = _
        exact List.take_add
      have hrest : (x.drop 4096).take 12288 ++ (x.drop 4096).drop 12288 = x.drop 4096 :=
        List.take_append_drop 12288 _
      have hlonger := delimiter_suffices_longer (x.take 4096) ((x.drop 4096).take 12288)
        ((x.drop 4096).drop 12288)
      rw [hrest, List.take_append_drop, ← htake] at hlonger
      exact hlonger hdelim
  · intro buf bufs hcut
    obtain ⟨hne, rfl⟩ := hcut
    exact buffers_agree_iff buf bufs hne

theorem importers_agree_no_body :
    (import_file (lit "A: b\r\n\r\n") .HEADER true).1.tree
        = (import_data (lit "A: b\r\n\r\n") .HEADER true).1.tree ∧
      (import_file_handle (lit "A: b\r\n\r\n") .HEADER true).1.tree
        = (import_data (lit "A: b\r\n\r\n") .HEADER true).1.tree := by
  have hnil : content_lines (lines (get_line_delimiter (lit "A: b\r\n\r\n"))
      (lit "A: b\r\n\r\n")) = [] := rfl
  refine (importers_agree_iff (lit "A: b\r\n\r\n") (by decide)).1.mpr ⟨Or.inl (by decide), ?_⟩
    .HEADER true
  -- no line ends the header
  intro no_hidden_header line rest hc
  rw [hnil] at hc
  exact absurd hc.symm (List.cons_ne_nil line rest)

/-- A blank line, and a body of one line. -/
def blank_and_body : Bytes := lit "\r\nA\r\n"

/-- **Two inputs on which they do not agree**: the line behind the header is
    parsed twice, or the delimiter is not in the first buffer. -/
theorem importers_disagree :
    ((import_data blank_and_body .HEADER false).1.body = lit "A\r\nA\r\n" ∧
      (import_file blank_and_body .HEADER false).1.body = lit "A\r\n" ∧
      (import_file_handle blank_and_body .HEADER false).1.body = lit "A\r\n") ∧
    (cut_into (lit "A\nB\n") [lit "A", lit "\nB\n"] ∧
      (import_data (lit "A\nB\n") .ALL false).1.header_ = [lit "A\n", lit "B\n", []] ∧
      (import_from [lit "A", lit "\nB\n"] .ALL false).1.header_ = [lit "A\nB\n"]) := by
  have hread : ∀ size, 5 ≤ size → reads size blank_and_body = [blank_and_body] := fun size hsize =>
    reads_short size blank_and_body (by decide) hsize
  have hstop := import_from_header false blank_and_body [] (by decide) (lit "A\r\n") [] rfl
  refine ⟨⟨?_, ?_, ?_⟩, ⟨by decide, by decide⟩, ?_, ?_⟩
  · rw [import_data_header false blank_and_body (by decide) (lit "A\r\n") [] rfl]
    rfl
  · unfold import_file
    rw [hread 4096 (by decide), hstop]
    rfl
  · unfold import_file_handle
    rw [hread 16384 (by decide), hstop]
    rfl
  · rw [import_data_lines .ALL false Flag.noConfusion _ (by decide)]
    rfl
  · rw [import_from_lines .ALL false Flag.noConfusion _ _ (by decide)]
    rfl

end Aos
