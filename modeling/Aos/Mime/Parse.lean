/-
  Aos.Mime.Parse — `parse_line`, the line-driven MIME parser.

  Every line enters at the root.  An entity whose header is not finished takes
  the line as a header line; behind its header the line is a boundary, belongs
  to the preamble, the epilogue or the body, or is handed to the last child.

  The states an entity passes through are named (`in_header`, `in_blanks`,
  `in_content`), and one lemma says what a line does in each of them; the
  later modules reason with these lemmas and never unfold the parser.
-/
import Aos.Mime.Entity

namespace Aos

namespace MIME_Entity

/-! ## §1. The parser. -/

/-- `header().rbegin()->append(line)`. -/
def append_to_last (line : Bytes) : MIME_Header_List → MIME_Header_List
  | [] => []
  | [field] => [field ++ line]
  | field :: next :: header_ => field :: append_to_last line (next :: header_)

def parse_header_line (e : MIME_Entity) (line : Bytes) (no_hidden_header : Bool) : MIME_Entity :=
  if e.pstate_ = .HEADER then
    -- in-header
    if deref line = CR ∨ deref line = LF then
      -- HEADER_END
      let boundary := e.get_boundary
      let e := { e with
        pstate_ := .HEADER_CRLF
        separator_ := if boundary ≠ [] then lit "--" ++ boundary else boundary }
      let e := if e.get_content_type = lit "message/rfc822" then e.append_child new else e
      e.append_header line
    else if deref line = TAB ∨ deref line = SP then
      -- HEADER_CONT
      if e.header_ ≠ [] then { e with header_ := append_to_last line e.header_ } else e
    else
      -- HEADER_NEW
      if no_hidden_header = false ∨ deref line ≠ HIDDEN_HEADER_CHAR then e.append_header line
      else e
  else if e.pstate_ = .HEADER_CRLF ∧ (deref line = CR ∨ deref line = LF) then
    { e with pstate_ := .HEADER_CRLF }.append_header line
  else
    { e with pstate_ := .HEADER_DONE, status_ := e.status_ ||| BODY_ENCODED }

/-- `parse_content_line`, with `fed` the children after the last of them has
    been given the line. -/
def parse_content_line (e : MIME_Entity) (line : Bytes) (with_body : Bool)
    (fed : List MIME_Entity) : MIME_Entity :=
  -- multipart
  if e.separator_ ≠ [] then
    -- is boundary
    if strncmp line e.separator_ e.separator_.length = 0 then
      let bsize := e.separator_.length
      -- is boundary end
      let e :=
        if line.length ≥ bsize + 2 ∧ line.getD bsize NUL = line.getD (bsize + 1) NUL
            ∧ line.getD bsize NUL = 45 then
          { e with pstate_ := .BOUNDARY_END }
        else e
      -- mark between-boundary
      let e := if e.pstate_ = .HEADER_DONE then { e with pstate_ := .BOUNDARY } else e
      -- boundary start
      if e.pstate_ = .BOUNDARY then e.append_child new else e
    -- before boundary
    else if e.pstate_ = .HEADER_DONE then { e with preamble_ := some (e.preamble ++ line) }
    -- after boundary
    else if e.pstate_ = .BOUNDARY_END then { e with epilogue_ := some (e.epilogue ++ line) }
    -- between boundary
    else if e.child_ ≠ [] then { e with child_ := fed } else e
  -- message
  else if e.get_content_type = lit "message/rfc822" then
    if e.child_ ≠ [] then { e with child_ := fed } else e
  -- non-multipart
  else if with_body then { e with body_ := some (e.body ++ line) }
  else e

mutual

def parse_line (line : Bytes) (no_hidden_header with_body : Bool) : MIME_Entity → MIME_Entity
  | ⟨header_, preamble_, body_, epilogue_, child_, status_, pstate_, separator_⟩ =>
      let fed := parse_last_child line no_hidden_header with_body child_
      let e : MIME_Entity :=
        ⟨header_, preamble_, body_, epilogue_, child_, status_, pstate_, separator_⟩
      let e :=
        if e.pstate_.val < Parse.HEADER_DONE.val then e.parse_header_line line no_hidden_header
        else e
      if e.pstate_.val ≥ Parse.HEADER_DONE.val then e.parse_content_line line with_body fed
      else e

/-- `child().rbegin()->parse_line(line)`. -/
def parse_last_child (line : Bytes) (no_hidden_header with_body : Bool) :
    List MIME_Entity → List MIME_Entity
  | [] => []
  | [e] => [parse_line line no_hidden_header with_body e]
  | e :: next :: child_ => e :: parse_last_child line no_hidden_header with_body (next :: child_)

end

/-- `parse_line` for each line in turn. -/
def parse_lines (no_hidden_header with_body : Bool) (e : MIME_Entity) (lines : List Bytes) :
    MIME_Entity :=
  lines.foldl (fun e line => parse_line line no_hidden_header with_body e) e

variable (no_hidden_header with_body : Bool)

@[simp] theorem parse_lines_nil (e : MIME_Entity) :
    e.parse_lines no_hidden_header with_body [] = e := rfl

@[simp] theorem parse_lines_cons (e : MIME_Entity) (line : Bytes) (lines : List Bytes) :
    e.parse_lines no_hidden_header with_body (line :: lines)
      = (e.parse_line line no_hidden_header with_body).parse_lines no_hidden_header with_body
          lines := rfl

theorem parse_lines_append (e : MIME_Entity) (ls ms : List Bytes) :
    e.parse_lines no_hidden_header with_body (ls ++ ms)
      = (e.parse_lines no_hidden_header with_body ls).parse_lines no_hidden_header with_body ms :=
  List.foldl_append

theorem parse_last_child_concat (line : Bytes) (es : List MIME_Entity) (e : MIME_Entity) :
    parse_last_child line no_hidden_header with_body (es ++ [e])
      = es ++ [e.parse_line line no_hidden_header with_body] := by
  induction es with
  | nil => rw [List.nil_append, parse_last_child, List.nil_append]
  | cons a es ih =>
      cases es with
      | nil => rw [List.cons_append, List.nil_append, parse_last_child, parse_last_child]; rfl
      | cons b es =>
          rw [List.cons_append, List.cons_append, parse_last_child, ← List.cons_append, ih]
          rfl

theorem append_to_last_concat (line : Bytes) (hs : MIME_Header_List) (field : Bytes) :
    append_to_last line (hs ++ [field]) = hs ++ [field ++ line] := by
  induction hs with
  | nil => rfl
  | cons a hs ih =>
      cases hs with
      | nil => rfl
      | cons b hs =>
          rw [List.cons_append, List.cons_append, append_to_last, ← List.cons_append, ih]
          rfl

/-- `parse_line` in terms of its two halves. -/
theorem parse_line_eq (e : MIME_Entity) (line : Bytes) :
    e.parse_line line no_hidden_header with_body =
      let fed := parse_last_child line no_hidden_header with_body e.child_
      let e' := if e.pstate_.val < 2 then e.parse_header_line line no_hidden_header else e
      if e'.pstate_.val ≥ 2 then e'.parse_content_line line with_body fed else e' := by
  obtain ⟨header_, preamble_, body_, epilogue_, child_, status_, pstate_, separator_⟩ := e
  rw [parse_line]
  rfl

/-- A line that leaves the entity in its header. -/
theorem parse_line_header (e e' : MIME_Entity) (line : Bytes) (h : e.pstate_.val < 2)
    (hstep : e.parse_header_line line no_hidden_header = e') (h' : e'.pstate_.val < 2) :
    e.parse_line line no_hidden_header with_body = e' := by
  rw [parse_line_eq]
  dsimp only
  rw [if_pos h, hstep, if_neg (by omega)]

/-- Behind the header a line is a content line. -/
theorem parse_line_content (e : MIME_Entity) (line : Bytes) (h : 2 ≤ e.pstate_.val) :
    e.parse_line line no_hidden_header with_body
      = e.parse_content_line line with_body
          (parse_last_child line no_hidden_header with_body e.child_) := by
  rw [parse_line_eq]
  dsimp only
  rw [if_neg (by omega : ¬ e.pstate_.val < 2), if_pos h]

/-- The line that ends the header is a content line at once. -/
theorem parse_line_header_done (e e' : MIME_Entity) (line : Bytes) (h : e.pstate_.val < 2)
    (hstep : e.parse_header_line line no_hidden_header = e') (h' : 2 ≤ e'.pstate_.val)
    (hchild : e'.child_ = e.child_) :
    e.parse_line line no_hidden_header with_body = e'.parse_line line no_hidden_header with_body := by
  rw [parse_line_content no_hidden_header with_body e' line h', parse_line_eq]
  dsimp only
  rw [if_pos h, hstep, if_pos h', hchild]

/-! ## §2. The states before the content. -/

/-- Reading the header, no blank line seen. -/
def in_header (hs : MIME_Header_List) : MIME_Entity := { new with header_ := hs }

/-- The separator `parse_header_line` takes from the header. -/
def separator_of (hs : MIME_Header_List) : Bytes :=
  if (in_header hs).get_boundary ≠ [] then lit "--" ++ (in_header hs).get_boundary
  else (in_header hs).get_boundary

/-- The header is that of an enclosed message. -/
def is_message (hs : MIME_Header_List) : Bool :=
  (in_header hs).get_content_type = lit "message/rfc822"

/-- Behind the first blank line. -/
def in_blanks (hs blanks : MIME_Header_List) : MIME_Entity :=
  { new with
    header_ := hs ++ blanks
    child_ := if is_message hs then [new] else []
    pstate_ := .HEADER_CRLF
    separator_ := separator_of hs }

/-- Where the first line that is not blank takes it. -/
def in_content (hs blanks : MIME_Header_List) : MIME_Entity :=
  { in_blanks hs blanks with pstate_ := .HEADER_DONE, status_ := BODY_ENCODED }

@[simp] theorem in_header_pstate (hs : MIME_Header_List) : (in_header hs).pstate_ = .HEADER := rfl

@[simp] theorem in_blanks_pstate (hs blanks : MIME_Header_List) :
    (in_blanks hs blanks).pstate_ = .HEADER_CRLF := rfl

/-- What a line that is not blank does to the fields read so far. -/
def add_field (hs : MIME_Header_List) (line : Bytes) : MIME_Header_List :=
  if deref line = TAB ∨ deref line = SP then
    if hs ≠ [] then append_to_last line hs else hs
  else if no_hidden_header = false ∨ deref line ≠ HIDDEN_HEADER_CHAR then hs ++ [line]
  else hs

theorem is_blank_iff (line : Bytes) : is_blank line = true ↔ deref line = CR ∨ deref line = LF :=
  decide_eq_true_iff

theorem new_eq_in_header : new = in_header [] := rfl

/-- A header line. -/
theorem parse_line_in_header (hs : MIME_Header_List) (line : Bytes)
    (hline : is_blank line = false) :
    (in_header hs).parse_line line no_hidden_header with_body
      = in_header (add_field no_hidden_header hs line) := by
  have hb : ¬ (deref line = CR ∨ deref line = LF) := by
    rw [← is_blank_iff, hline]
    exact Bool.false_ne_true
  have hstep : (in_header hs).parse_header_line line no_hidden_header
      = in_header (add_field no_hidden_header hs line) := by
    unfold parse_header_line add_field
    rw [if_pos (in_header_pstate hs), if_neg hb]
    by_cases hcont : deref line = TAB ∨ deref line = SP
    · rw [if_pos hcont, if_pos hcont]
      by_cases hhs : hs ≠ []
      · rw [if_pos hhs]
        exact if_pos hhs
      · rw [if_neg hhs]
        exact if_neg hhs
    · rw [if_neg hcont, if_neg hcont]
      by_cases hkeep : no_hidden_header = false ∨ deref line ≠ HIDDEN_HEADER_CHAR
      · rw [if_pos hkeep, if_pos hkeep]
        rfl
      · rw [if_neg hkeep, if_neg hkeep]
  exact parse_line_header no_hidden_header with_body _ _ line Nat.zero_lt_two hstep Nat.zero_lt_two

/-- The first blank line. -/
theorem parse_line_first_blank (hs : MIME_Header_List) (line : Bytes)
    (hline : is_blank line = true) :
    (in_header hs).parse_line line no_hidden_header with_body = in_blanks hs [line] := by
  -- the separator and the enclosed message are found here, before the line is kept
  have hstep : (in_header hs).parse_header_line line no_hidden_header = in_blanks hs [line] := by
    unfold parse_header_line
    rw [if_pos (in_header_pstate hs), if_pos ((is_blank_iff line).mp hline)]
    dsimp only
    by_cases hmsg : is_message hs = true
    · have hct : (in_header hs).get_content_type = lit "message/rfc822" := of_decide_eq_true hmsg
      unfold in_blanks
      rw [if_pos hmsg]
      exact congrArg (append_header · line) (if_pos hct)
    · have hct : ¬ (in_header hs).get_content_type = lit "message/rfc822" :=
        fun h => hmsg (decide_eq_true h)
      unfold in_blanks
      rw [if_neg hmsg]
      exact congrArg (append_header · line) (if_neg hct)
  exact parse_line_header no_hidden_header with_body _ _ line Nat.zero_lt_two hstep Nat.one_lt_two

/-- Another blank line. -/
theorem parse_line_next_blank (hs blanks : MIME_Header_List) (line : Bytes)
    (hline : is_blank line = true) :
    (in_blanks hs blanks).parse_line line no_hidden_header with_body
      = in_blanks hs (blanks ++ [line]) := by
  have hstep : (in_blanks hs blanks).parse_header_line line no_hidden_header
      = in_blanks hs (blanks ++ [line]) := by
    unfold parse_header_line
    rw [in_blanks_pstate, if_neg Parse.noConfusion, if_pos ⟨rfl, (is_blank_iff line).mp hline⟩]
    unfold in_blanks append_header
    rw [← List.append_assoc]
  exact parse_line_header no_hidden_header with_body _ _ line Nat.one_lt_two hstep Nat.one_lt_two

/-- The line that ends the header is the first content line. -/
theorem parse_line_first_content (hs blanks : MIME_Header_List) (line : Bytes)
    (hline : is_blank line = false) :
    (in_blanks hs blanks).parse_line line no_hidden_header with_body
      = (in_content hs blanks).parse_line line no_hidden_header with_body := by
  have hb : ¬ (deref line = CR ∨ deref line = LF) := by
    rw [← is_blank_iff, hline]
    exact Bool.false_ne_true
  have hstep : (in_blanks hs blanks).parse_header_line line no_hidden_header
      = in_content hs blanks := by
    unfold parse_header_line
    rw [in_blanks_pstate, if_neg Parse.noConfusion, if_neg (fun h => hb h.2)]
    -- whatever the content is, it counts as encoded
    have hstatus : (0 : Byte) ||| BODY_ENCODED = BODY_ENCODED := by decide
    unfold in_content
    rw [← hstatus]
    rfl
  exact parse_line_header_done no_hidden_header with_body _ _ line Nat.one_lt_two hstep le_rfl rfl

/-! ## §3. Content lines. -/

/-- The header parameters do not see the blank lines. -/
theorem get_content_type_blanks (hs blanks : MIME_Header_List) (e : MIME_Entity)
    (he : e.header_ = hs ++ blanks) (hb : ∀ b ∈ blanks, is_blank b = true) :
    e.get_content_type = (in_header hs).get_content_type := by
  unfold get_content_type
  rw [he]
  exact header_parameter_blank hs blanks 99 (lit "ontent-type:") (lit "content-type:") 12
    (by decide) hb

theorem get_boundary_blanks (hs blanks : MIME_Header_List) (e : MIME_Entity)
    (he : e.header_ = hs ++ blanks) (hb : ∀ b ∈ blanks, is_blank b = true) :
    e.get_boundary = (in_header hs).get_boundary := by
  unfold get_boundary
  rw [he]
  exact header_parameter_blank hs blanks 99 (lit "ontent-type:") (lit "boundary") 12
    (by decide) hb

/-- A line of a leaf's body. -/
theorem parse_content_leaf (e : MIME_Entity) (line : Bytes) (fed : List MIME_Entity)
    (hsep : e.separator_ = []) (hct : e.get_content_type ≠ lit "message/rfc822") :
    e.parse_content_line line with_body fed
      = if with_body then { e with body_ := some (e.body ++ line) } else e := by
  unfold parse_content_line
  rw [if_neg (by rw [hsep]; simp), if_neg hct]

/-- A line of an enclosed message. -/
theorem parse_content_message (e : MIME_Entity) (line : Bytes) (fed : List MIME_Entity)
    (hsep : e.separator_ = []) (hct : e.get_content_type = lit "message/rfc822")
    (hchild : e.child_ ≠ []) :
    e.parse_content_line line with_body fed = { e with child_ := fed } := by
  unfold parse_content_line
  rw [if_neg (by rw [hsep]; simp), if_pos hct, if_pos hchild]

/-- A boundary line closes its entity. -/
def is_boundary_end (separator line : Bytes) : Bool :=
  line.length ≥ separator.length + 2
    ∧ line.getD separator.length NUL = line.getD (separator.length + 1) NUL
    ∧ line.getD separator.length NUL = 45

/-- `strncmp(line.c_str(), separator_.c_str(), separator_.size()) == 0`. -/
def is_boundary (separator line : Bytes) : Bool := strncmp line separator separator.length = 0

/-- A closing boundary. -/
theorem parse_content_boundary_end (e : MIME_Entity) (line : Bytes) (fed : List MIME_Entity)
    (hsep : e.separator_ ≠ []) (hb : is_boundary e.separator_ line = true)
    (hend : is_boundary_end e.separator_ line = true) :
    e.parse_content_line line with_body fed = { e with pstate_ := .BOUNDARY_END } := by
  unfold parse_content_line
  rw [if_pos hsep, if_pos (of_decide_eq_true hb)]
  dsimp only
  rw [if_pos (of_decide_eq_true hend)]
  rfl

/-- A boundary in front of a part. -/
theorem parse_content_boundary (e : MIME_Entity) (line : Bytes) (fed : List MIME_Entity)
    (hsep : e.separator_ ≠ []) (hb : is_boundary e.separator_ line = true)
    (hend : is_boundary_end e.separator_ line = false)
    (hp : e.pstate_ = .HEADER_DONE ∨ e.pstate_ = .BOUNDARY) :
    e.parse_content_line line with_body fed
      = { e with pstate_ := .BOUNDARY, child_ := e.child_ ++ [new] } := by
  unfold parse_content_line
  rw [if_pos hsep, if_pos (of_decide_eq_true hb)]
  dsimp only
  rw [if_neg (of_decide_eq_false hend)]
  -- the first boundary also ends the preamble
  rcases hp with hp | hp
  · rw [if_pos hp]
    rfl
  · have hnot : ¬ e.pstate_ = .HEADER_DONE := by
      rw [hp]
      exact Parse.noConfusion
    rw [if_neg hnot, if_pos hp]
    unfold append_child
    rw [← hp]

/-- A boundary behind the closing one is ignored. -/
theorem parse_content_boundary_after (e : MIME_Entity) (line : Bytes) (fed : List MIME_Entity)
    (hsep : e.separator_ ≠ []) (hb : is_boundary e.separator_ line = true)
    (hend : is_boundary_end e.separator_ line = false)
    (hp : ¬ (e.pstate_ = .HEADER_DONE ∨ e.pstate_ = .BOUNDARY)) :
    e.parse_content_line line with_body fed = e := by
  rw [not_or] at hp
  unfold parse_content_line
  rw [if_pos hsep, if_pos (of_decide_eq_true hb)]
  dsimp only
  rw [if_neg (of_decide_eq_false hend), if_neg hp.1, if_neg hp.2]

/-- A line in front of the first boundary. -/
theorem parse_content_preamble (e : MIME_Entity) (line : Bytes) (fed : List MIME_Entity)
    (hsep : e.separator_ ≠ []) (hb : is_boundary e.separator_ line = false)
    (hp : e.pstate_ = .HEADER_DONE) :
    e.parse_content_line line with_body fed
      = { e with preamble_ := some (e.preamble ++ line) } := by
  unfold parse_content_line
  rw [if_pos hsep, if_neg (of_decide_eq_false hb), if_pos hp]

/-- A line behind the closing boundary. -/
theorem parse_content_epilogue (e : MIME_Entity) (line : Bytes) (fed : List MIME_Entity)
    (hsep : e.separator_ ≠ []) (hb : is_boundary e.separator_ line = false)
    (hp : e.pstate_ = .BOUNDARY_END) :
    e.parse_content_line line with_body fed
      = { e with epilogue_ := some (e.epilogue ++ line) } := by
  unfold parse_content_line
  have hnot : ¬ e.pstate_ = .HEADER_DONE := by
    rw [hp]
    exact Parse.noConfusion
  rw [if_pos hsep, if_neg (of_decide_eq_false hb), if_neg hnot, if_pos hp]

/-- A line between two boundaries goes to the last part. -/
theorem parse_content_part (e : MIME_Entity) (line : Bytes) (fed : List MIME_Entity)
    (hsep : e.separator_ ≠ []) (hb : is_boundary e.separator_ line = false)
    (hp : e.pstate_ = .BOUNDARY) (hchild : e.child_ ≠ []) :
    e.parse_content_line line with_body fed = { e with child_ := fed } := by
  unfold parse_content_line
  have h1 : ¬ e.pstate_ = .HEADER_DONE := by
    rw [hp]
    exact Parse.noConfusion
  have h2 : ¬ e.pstate_ = .BOUNDARY_END := by
    rw [hp]
    exact Parse.noConfusion
  rw [if_pos hsep, if_neg (of_decide_eq_false hb), if_neg h1, if_neg h2, if_pos hchild]

end MIME_Entity

end Aos
