/-
  Aos.Mime.RoundTrip — export then import, on canonical trees.

  The lines of a part are handed down unchanged by every entity around it, as
  long as none of them is a boundary there.  So a part is parsed as if it stood
  alone, and the round trip goes by induction over the tree.

  Main results:
    • `parse_parts` — the lines of the parts build the parts;
    • `parse_canonical` — the lines of a canonical tree build that tree;
    • **`export_import_canonical`** — the round trip.
-/
import Aos.Mime.Canonical
import Aos.Mime.Import

namespace Aos

open Lib.Lines MIME_Entity

/-! ## §1. Boundary lines. -/

theorem is_boundary_iff (separator line : Bytes) (h : NUL ∉ separator) :
    is_boundary separator line = true ↔ separator <+: line := by
  unfold is_boundary
  rw [decide_eq_true_iff]
  exact strncmp_prefix_iff separator h line

theorem boundary_line_eq (b : Bytes) : boundary_line b = (lit "--" ++ b) ++ [CR, LF] := rfl

theorem boundary_end_line_eq (b : Bytes) :
    boundary_end_line b = (lit "--" ++ b) ++ [45, 45, CR, LF] := rfl

theorem boundary_line_prefix (b : Bytes) : (lit "--" ++ b) <+: boundary_line b :=
  List.prefix_append _ _

theorem boundary_end_line_prefix (b : Bytes) : (lit "--" ++ b) <+: boundary_end_line b :=
  List.prefix_append _ _

theorem getD_append_right (s : Bytes) (a : Byte) (t : Bytes) :
    (s ++ a :: t).getD s.length NUL = a := by
  simp [List.getD]

/-- The line in front of a part closes nothing. -/
theorem boundary_line_opens (b : Bytes) :
    is_boundary_end (lit "--" ++ b) (boundary_line b) = false := by
  apply decide_eq_false
  intro hboth
  obtain ⟨_, _, h⟩ := hboth
  rw [boundary_line_eq, getD_append_right] at h
  exact absurd h (by decide)

/-- The line behind the last part closes the entity. -/
theorem boundary_end_line_closes (b : Bytes) :
    is_boundary_end (lit "--" ++ b) (boundary_end_line b) = true := by
  have h1 : (boundary_end_line b).getD (lit "--" ++ b).length NUL = 45 := by
    rw [boundary_end_line_eq]
    exact getD_append_right _ 45 _
  -- the second hyphen stands behind the first
  have h2 : (boundary_end_line b).getD ((lit "--" ++ b).length + 1) NUL = 45 := by
    have hsplit : boundary_end_line b = ((lit "--" ++ b) ++ [45]) ++ 45 :: [CR, LF] := by
      rw [boundary_end_line_eq, List.append_assoc _ [45]]
      rfl
    have hlen : (lit "--" ++ b).length + 1 = ((lit "--" ++ b) ++ [(45 : Byte)]).length := by
      simp only [List.length_append, List.length_singleton]
    rw [hsplit, hlen]
    exact getD_append_right _ 45 _
  refine decide_eq_true ⟨?_, by rw [h1, h2], h1⟩
  have hlen : (boundary_end_line b).length = (lit "--" ++ b).length + 4 := List.length_append
  omega

theorem boundary_line_isLine (b : Bytes) (h : LF ∉ b) : IsLine LF (boundary_line b) := by
  refine ⟨lit "--" ++ b ++ [CR], ?_, by rw [boundary_line_eq]; simp⟩
  simp only [List.mem_append, not_or]
  exact ⟨⟨by decide, h⟩, by decide⟩

theorem boundary_end_line_isLine (b : Bytes) (h : LF ∉ b) : IsLine LF (boundary_end_line b) := by
  refine ⟨lit "--" ++ b ++ [45, 45, CR], ?_, by rw [boundary_end_line_eq]; simp⟩
  simp only [List.mem_append, not_or]
  exact ⟨⟨by decide, h⟩, by decide⟩

/-! ## §2. An entity among its parts. -/

/-- Behind the header: what has been read of preamble, parts and epilogue. -/
def in_parts (fs bs : MIME_Header_List) (preamble_ : Option Bytes) (child_ : List MIME_Entity)
    (pstate_ : Parse) (epilogue_ : Option Bytes) : MIME_Entity :=
  { in_content fs bs with
    preamble_ := preamble_
    child_ := child_
    pstate_ := pstate_
    epilogue_ := epilogue_ }

section

variable (no_hidden_header : Bool) (fs bs : MIME_Header_List) (b : Bytes)
  (hsep : separator_of fs = lit "--" ++ b) (hnul : NUL ∉ b)

include hsep

theorem separator_ne_nil : separator_of fs ≠ [] := by
  rw [hsep]
  exact List.cons_ne_nil 45 _

/-- The closing line. -/
theorem parse_end_line (pre : Option Bytes) (ds : List MIME_Entity) (epi : Option Bytes)
    (hnul : NUL ∉ b) :
    (in_parts fs bs pre ds .BOUNDARY epi).parse_line (boundary_end_line b) no_hidden_header true
      = in_parts fs bs pre ds .BOUNDARY_END epi := by
  have hnul' : NUL ∉ separator_of fs := by
    rw [hsep, List.mem_append, not_or]
    exact ⟨by decide, hnul⟩
  rw [parse_line_content _ _ _ _ (by decide : 2 ≤ Parse.BOUNDARY.val),
    parse_content_boundary_end true (in_parts fs bs pre ds .BOUNDARY epi) _ _
      (separator_ne_nil fs b hsep)]
  · rfl
  · show is_boundary (separator_of fs) _ = true
    rw [is_boundary_iff _ _ hnul', hsep]
    exact boundary_end_line_prefix b
  · show is_boundary_end (separator_of fs) _ = true
    rw [hsep]
    exact boundary_end_line_closes b

include hnul

theorem separator_no_nul : NUL ∉ separator_of fs := by
  rw [hsep, List.mem_append, not_or]
  exact ⟨by decide, hnul⟩

/-- A line that is no boundary here. -/
theorem not_boundary (l : Bytes) (h : ¬ (lit "--" ++ b) <+: l) :
    is_boundary (separator_of fs) l = false := by
  rw [← Bool.not_eq_true, is_boundary_iff _ _ (separator_no_nul fs b hsep hnul), hsep]
  exact h

/-- A boundary line opens a part. -/
theorem parse_boundary_line (pre : Option Bytes) (ds : List MIME_Entity) (st : Parse)
    (epi : Option Bytes) (hst : st = .HEADER_DONE ∨ st = .BOUNDARY) :
    (in_parts fs bs pre ds st epi).parse_line (boundary_line b) no_hidden_header true
      = in_parts fs bs pre (ds ++ [new]) .BOUNDARY epi := by
  have hval : 2 ≤ st.val := by
    rcases hst with rfl | rfl
    · exact le_rfl
    · exact Nat.le_succ 2
  rw [parse_line_content _ _ _ _ hval,
    parse_content_boundary true (in_parts fs bs pre ds st epi) _ _ (separator_ne_nil fs b hsep)
      ?_ ?_ hst]
  · rfl
  · show is_boundary (separator_of fs) _ = true
    rw [is_boundary_iff _ _ (separator_no_nul fs b hsep hnul), hsep]
    exact boundary_line_prefix b
  · show is_boundary_end (separator_of fs) _ = false
    rw [hsep]
    exact boundary_line_opens b

/-- Lines of the preamble. -/
theorem parse_preamble (ls : List Bytes) (h : ∀ l ∈ ls, ¬ (lit "--" ++ b) <+: l) :
    ∀ pre : Option Bytes, ∃ pre' : Option Bytes, pre'.getD [] = pre.getD [] ++ ls.flatten ∧
      (in_parts fs bs pre [] .HEADER_DONE none).parse_lines no_hidden_header true ls
        = in_parts fs bs pre' [] .HEADER_DONE none := by
  apply parse_text no_hidden_header (fun pre => in_parts fs bs pre [] .HEADER_DONE none)
  intro l hl pre
  show (in_parts fs bs pre [] .HEADER_DONE none).parse_line l no_hidden_header true = _
  rw [parse_line_content _ _ _ _ (by decide : 2 ≤ Parse.HEADER_DONE.val),
    parse_content_preamble true (in_parts fs bs pre [] .HEADER_DONE none) l _
      (separator_ne_nil fs b hsep) (not_boundary fs b hsep hnul l (h l hl)) rfl]
  rfl

/-- Lines of the epilogue. -/
theorem parse_epilogue (ls : List Bytes) (pre : Option Bytes) (ds : List MIME_Entity)
    (h : ∀ l ∈ ls, ¬ (lit "--" ++ b) <+: l) :
    ∀ epi : Option Bytes, ∃ epi' : Option Bytes, epi'.getD [] = epi.getD [] ++ ls.flatten ∧
      (in_parts fs bs pre ds .BOUNDARY_END epi).parse_lines no_hidden_header true ls
        = in_parts fs bs pre ds .BOUNDARY_END epi' := by
  apply parse_text no_hidden_header (fun epi => in_parts fs bs pre ds .BOUNDARY_END epi)
  intro l hl epi
  show (in_parts fs bs pre ds .BOUNDARY_END epi).parse_line l no_hidden_header true = _
  rw [parse_line_content _ _ _ _ (by decide : 2 ≤ Parse.BOUNDARY_END.val),
    parse_content_epilogue true (in_parts fs bs pre ds .BOUNDARY_END epi) l _
      (separator_ne_nil fs b hsep) (not_boundary fs b hsep hnul l (h l hl)) rfl]
  rfl

/-- Lines of a part go to that part. -/
theorem parse_part (ls : List Bytes) (pre : Option Bytes) (ds : List MIME_Entity)
    (epi : Option Bytes) (h : ∀ l ∈ ls, ¬ (lit "--" ++ b) <+: l) :
    ∀ c : MIME_Entity,
      (in_parts fs bs pre (ds ++ [c]) .BOUNDARY epi).parse_lines no_hidden_header true ls
        = in_parts fs bs pre (ds ++ [c.parse_lines no_hidden_header true ls]) .BOUNDARY epi := by
  induction ls with
  | nil => intro c; rfl
  | cons l ls ih =>
      intro c
      have hstep :
          (in_parts fs bs pre (ds ++ [c]) .BOUNDARY epi).parse_line l no_hidden_header true
            = in_parts fs bs pre (ds ++ [c.parse_line l no_hidden_header true]) .BOUNDARY epi := by
        rw [parse_line_content _ _ _ _ (by decide : 2 ≤ Parse.BOUNDARY.val),
          parse_content_part true (in_parts fs bs pre (ds ++ [c]) .BOUNDARY epi) l _
            (separator_ne_nil fs b hsep)
            (not_boundary fs b hsep hnul l (h l List.mem_cons_self)) rfl (by simp [in_parts])]
        show in_parts fs bs pre (parse_last_child l no_hidden_header true (ds ++ [c]))
          .BOUNDARY epi = _
        rw [parse_last_child_concat]
      rw [parse_lines_cons, hstep, ih (fun l' hl' => h l' (List.mem_cons_of_mem l hl'))]
      rfl

/-- **All parts**, each behind its boundary line, are parsed as if they stood alone. -/
theorem parse_parts (cs : List MIME_Entity) (hcs : ∀ c ∈ cs, free_of (lit "--" ++ b) (text c))
    (pre epi : Option Bytes) :
    ∀ (ds : List MIME_Entity) (st : Parse), st = .HEADER_DONE ∨ st = .BOUNDARY →
      (in_parts fs bs pre ds st epi).parse_lines no_hidden_header true
          (cs.flatMap (fun c => boundary_line b :: lines LF (text c)))
        = in_parts fs bs pre
            (ds ++ cs.map (fun c => new.parse_lines no_hidden_header true (lines LF (text c))))
            (if cs = [] then st else .BOUNDARY) epi := by
  induction cs with
  | nil =>
      intro ds st _
      rw [List.map_nil, List.append_nil, if_pos rfl]
      rfl
  | cons c cs ih =>
      intro ds st hst
      -- the boundary line opens the part, which then takes its own lines
      rw [List.flatMap_cons, List.cons_append, parse_lines_cons,
        parse_boundary_line no_hidden_header fs bs b hsep hnul pre ds st epi hst,
        parse_lines_append,
        parse_part no_hidden_header fs bs b hsep hnul _ pre ds epi (hcs c List.mem_cons_self),
        ih (fun c' hc' => hcs c' (List.mem_cons_of_mem c hc')) _ .BOUNDARY (Or.inr rfl),
        if_neg (List.cons_ne_nil c cs), ite_self, List.map_cons, List.append_assoc,
        List.singleton_append]

/-- **The content of a multipart**: preamble, parts, closing line and epilogue, in
    this order. -/
theorem parse_multipart_content (pls els : List Bytes) (cs : List MIME_Entity) (hne : cs ≠ [])
    (hpls : ∀ l ∈ pls, ¬ (lit "--" ++ b) <+: l) (hels : ∀ l ∈ els, ¬ (lit "--" ++ b) <+: l)
    (hcs : ∀ c ∈ cs, free_of (lit "--" ++ b) (text c)) :
    ∃ pre' epi' : Option Bytes, pre'.getD [] = pls.flatten ∧ epi'.getD [] = els.flatten ∧
      (in_parts fs bs none [] .HEADER_DONE none).parse_lines no_hidden_header true
          (pls ++ (cs.flatMap (fun c => boundary_line b :: lines LF (text c)) ++
            boundary_end_line b :: els))
        = in_parts fs bs pre'
            (cs.map (fun c => new.parse_lines no_hidden_header true (lines LF (text c))))
            .BOUNDARY_END epi' := by
  obtain ⟨pre', hpre', hrunpre⟩ := parse_preamble no_hidden_header fs bs b hsep hnul pls hpls none
  obtain ⟨epi', hepi', hrunepi⟩ := parse_epilogue no_hidden_header fs bs b hsep hnul els pre'
    (cs.map (fun c => new.parse_lines no_hidden_header true (lines LF (text c)))) hels none
  refine ⟨pre', epi', hpre', hepi', ?_⟩
  rw [parse_lines_append, hrunpre, parse_lines_append,
    parse_parts no_hidden_header fs bs b hsep hnul cs hcs pre' none [] .HEADER_DONE (Or.inl rfl),
    if_neg hne, List.nil_append, parse_lines_cons,
    parse_end_line no_hidden_header fs bs b hsep _ _ _ hnul, hrunepi]

end

/-! ## §3. A canonical tree. -/

/-- A text that does not begin with a blank line has a first line that is not blank. -/
theorem first_line_not_blank {s : Bytes} (hw : Whole LF s) (hne : s ≠ []) (hb : is_blank s = false) :
    ∃ l ls, lines LF s = l :: ls ∧ is_blank l = false := by
  cases s with
  | nil => exact absurd rfl hne
  | cons a s =>
      obtain ⟨l, ls, hl⟩ := lines_head hw
      exact ⟨a :: l, ls, hl, hb⟩

/-- The header of a leaf, and then its content. -/
theorem parse_canonical_leaf (no_hidden_header : Bool) {hs fs bs : MIME_Header_List}
    (hh : canonical_header hs fs bs) (hsep : separator_of fs = []) (hmsg : is_message fs = false)
    (content : List Bytes) (hc : ∀ l ls, content = l :: ls → is_blank l = false) :
    (new.parse_lines no_hidden_header true (lines LF hs.flatten ++ content)).tree
      = ⟨hs, [], content.flatten, [], []⟩ := by
  have hhs := hh.1
  have hblank : ∀ b ∈ bs, is_blank b = true := fun b hb => by
    rw [hh.2.2.2.2 b hb]
    decide
  rw [parse_lines_append, parse_canonical_header no_hidden_header true hh]
  -- without content the parser stays behind the blank lines
  cases content with
  | nil =>
      rw [parse_lines_nil, tree_eq, hhs]
      unfold in_blanks
      rw [hmsg]
      rfl
  | cons l ls =>
      rw [parse_content _ _ _ _ _ _ (hc l ls rfl), parse_leaf _ _ _ hsep hmsg hblank, tree_eq, hhs]
      unfold in_content in_blanks
      rw [hmsg]
      rfl

/-- What the header of a canonical entity says. -/
theorem canonical_header_says (e : MIME_Entity) {fs bs : MIME_Header_List}
    (hh : canonical_header e.header_ fs bs) :
    (in_header fs).get_boundary = e.get_boundary ∧
    (in_header fs).get_content_type = e.get_content_type := by
  have hblank : ∀ b ∈ bs, is_blank b = true := fun b hb => by
    rw [hh.2.2.2.2 b hb]
    decide
  exact ⟨(get_boundary_blanks fs bs e hh.1 hblank).symm,
    (get_content_type_blanks fs bs e hh.1 hblank).symm⟩

/-- A leaf, with empty lines behind its text. -/
theorem parse_leaf_text (no_hidden_header : Bool) {e : MIME_Entity} {fs bs : MIME_Header_List}
    (hh : canonical_header e.header_ fs bs) (hbound : e.get_boundary = [])
    (hct : e.get_content_type ≠ lit "message/rfc822") (hpre : e.preamble = [])
    (hepi : e.epilogue = []) (hchild : e.child_ = []) (hbody : crlf_text e.body)
    (hstart : is_blank e.body = false) (tail : List Bytes) (htail : ∀ l ∈ tail, l = []) :
    (new.parse_lines no_hidden_header true (lines LF (text e) ++ tail)).tree = e.tree := by
  obtain ⟨hsb, hsct⟩ := canonical_header_says e hh
  have hsep : separator_of fs = [] := by
    unfold separator_of
    rw [hsb, hbound]
    rfl
  have hmsg : is_message fs = false := decide_eq_false (by rw [hsct]; exact hct)
  have hflat : tail.flatten = [] := List.flatten_eq_nil_iff.mpr htail
  -- the first content line is a line of the body, or the empty one
  have hfirst : ∀ l ls, lines LF e.body ++ tail = l :: ls → is_blank l = false := by
    intro l ls hl
    by_cases hne : e.body = []
    · rw [hne, lines_nil, List.nil_append] at hl
      rw [htail l (by rw [hl]; exact List.mem_cons_self)]
      rfl
    · obtain ⟨l', ls', hl', hb⟩ := first_line_not_blank hbody.whole hne hstart
      rw [hl', List.cons_append] at hl
      exact (List.cons.inj hl).1 ▸ hb
  rw [text_leaf e hh hpre hepi hchild, lines_append hh.whole.1, List.append_assoc,
    parse_canonical_leaf no_hidden_header hh hsep hmsg _ hfirst, List.flatten_append, hflat,
    hbody.whole.flatten, List.append_nil, tree_eq e, hpre, hepi, hchild]
  rfl

/-- The parts of a multipart in its text, line by line. -/
theorem lines_of_parts {b : Bytes} (hlf : LF ∉ b) {cs : List MIME_Entity}
    (hcs : ∀ c ∈ cs, Whole LF (text c)) :
    Whole LF (cs.map (fun c => boundary_line b ++ text c)).flatten ∧
    lines LF (cs.map (fun c => boundary_line b ++ text c)).flatten
      = cs.flatMap (fun c => boundary_line b :: lines LF (text c)) := by
  have hline := boundary_line_isLine b hlf
  have hpart : ∀ t ∈ cs.map (fun c => boundary_line b ++ text c), Whole LF t := by
    intro t ht
    obtain ⟨c, hc, rfl⟩ := List.mem_map.mp ht
    exact hline.whole.append (hcs c hc)
  have hparts := whole_flatten hpart
  refine ⟨hparts.1, ?_⟩
  rw [hparts.2, List.flatMap_map]
  apply List.flatMap_congr
  intro c _
  rw [lines_append hline.whole, hline.lines, List.singleton_append]

/-- The content of a multipart begins with the preamble or with a boundary. -/
theorem multipart_not_blank {e : MIME_Entity} (hchild : e.child_ ≠ [])
    (hpstart : is_blank e.preamble = false) (rest : Bytes) :
    is_blank (e.preamble ++
      ((e.child_.map (fun c => boundary_line e.get_boundary ++ text c)).flatten ++ rest)) = false := by
  cases hp : e.preamble with
  | nil =>
      obtain ⟨c, cs, hcs⟩ := List.exists_cons_of_ne_nil hchild
      rw [hcs]
      rfl
  | cons a s =>
      rw [hp] at hpstart
      exact hpstart

/-- **The lines of a canonical tree build that tree.**  Empty lines behind
    them, which is what the last call of `parse_line` is given, change nothing. -/
theorem parse_canonical (no_hidden_header : Bool) (e : MIME_Entity) (he : Canonical e) :
    Whole LF (text e) ∧ ∀ tail : List Bytes, (∀ l ∈ tail, l = []) →
      (new.parse_lines no_hidden_header true (lines LF (text e) ++ tail)).tree = e.tree := by
  induction he with
  | leaf e fs bs hh hbound hct hpre hepi hchild hbody hstart =>
      refine ⟨?_, parse_leaf_text no_hidden_header hh hbound hct hpre hepi hchild hbody hstart⟩
      rw [text_leaf e hh hpre hepi hchild]
      exact hh.whole.1.append hbody.whole
  | multipart e fs bs hh hbound hnul hct hbody hpre hpstart hepi hchild hpfree hefree hcfree _ ih =>
      have htext := text_multipart e hh hbound hchild
      have hlf : LF ∉ e.get_boundary := fun h => (get_boundary_no_break e LF h).2 rfl
      have hend := boundary_end_line_isLine e.get_boundary hlf
      obtain ⟨hparts, hplines⟩ := lines_of_parts hlf (fun c hc => (ih c hc).1)
      have hcontent := hpre.whole.append (hparts.append (hend.whole.append hepi.whole))
      refine ⟨?_, ?_⟩
      · rw [htext]
        exact hh.whole.1.append hcontent
      · intro tail htail
        obtain ⟨hsb, hsct⟩ := canonical_header_says e hh
        have hsep : separator_of fs = lit "--" ++ e.get_boundary := by
          unfold separator_of
          rw [hsb, if_pos hbound]
        have hmsg : is_message fs = false := decide_eq_false (by rw [hsct]; exact hct)
        have hflat : tail.flatten = [] := List.flatten_eq_nil_iff.mpr htail
        have hstart : in_content fs bs = in_parts fs bs none [] .HEADER_DONE none := by
          unfold in_parts in_content in_blanks
          rw [hmsg]
          rfl
        have hefree' : ∀ l ∈ lines LF e.epilogue ++ tail, ¬ (lit "--" ++ e.get_boundary) <+: l := by
          intro l hl
          rcases List.mem_append.mp hl with hl | hl
          · exact hefree l hl
          · rw [htail l hl]
            intro hp
            exact absurd (List.prefix_nil.mp hp) (List.cons_ne_nil 45 _)
        obtain ⟨l, ls, hl, hlb⟩ := first_line_not_blank hcontent (by simp [boundary_end_line, lit])
          (multipart_not_blank hchild hpstart _)
        obtain ⟨pre', epi', hpre', hepi', hrun⟩ := parse_multipart_content no_hidden_header fs bs
          e.get_boundary hsep hnul (lines LF e.preamble) (lines LF e.epilogue ++ tail) e.child_ hchild
          hpfree hefree' hcfree
        rw [htext, lines_append hh.whole.1, List.append_assoc, parse_lines_append,
          parse_canonical_header no_hidden_header true hh, hl, List.cons_append,
          parse_content _ _ _ _ _ _ hlb, ← List.cons_append, ← hl, hstart,
          lines_append hpre.whole, lines_append hparts, lines_append hend.whole, hend.lines, hplines,
          List.append_assoc, List.append_assoc, List.append_assoc, List.singleton_append, hrun,
          tree_eq, tree_eq e]
        -- every part is its child again, which is the induction hypothesis
        have htrees : (e.child_.map
            (fun c => new.parse_lines no_hidden_header true (lines LF (text c)))).map tree
              = e.child_.map tree := by
          rw [List.map_map]
          apply List.map_congr_left
          intro c hc
          have hone := (ih c hc).2 [] (fun l hl => absurd hl List.not_mem_nil)
          rwa [List.append_nil] at hone
        show Tree.mk (fs ++ bs) (pre'.getD []) [] (epi'.getD []) _ = _
        rw [hpre', hepi', hpre.whole.flatten, List.flatten_append, hepi.whole.flatten, hflat,
          List.append_nil, ← hh.1, hbody]
        exact congrArg _ htrees

/-! ## §4. The round trip. -/

/-- The first line break of the text is a CRLF: no bare CR in its first line. -/
def first_break_crlf (s : Bytes) : Prop :=
  ∃ t rest, s = t ++ CR :: LF :: rest ∧ ∀ b ∈ t, b ≠ LF ∧ b ≠ CR

/-- **Export then import is the identity on canonical trees**, of any depth and
    width: the tree read back has the same header strings, preambles, bodies,
    epilogues and children. -/
theorem export_import_canonical (e : MIME_Entity) (he : Canonical e)
    (hfirst : first_break_crlf e.header_.flatten) (hidden hidden' : Bool) :
    (import_data (export_data e .ALL hidden).1 .ALL hidden').1.tree = e.tree := by
  obtain ⟨hwhole, hparse⟩ := parse_canonical hidden' e he
  -- either kind of entity has a canonical header
  have hheader : ∃ fs bs, canonical_header e.header_ fs bs := by
    cases he with
    | leaf _ fs bs hh => exact ⟨fs, bs, hh⟩
    | multipart _ fs bs hh => exact ⟨fs, bs, hh⟩
  obtain ⟨fs, bs, hh⟩ := hheader
  have hexport := text_canonical hidden e hh
  obtain ⟨t, rest, hsplit, ht⟩ := hfirst
  obtain ⟨rest', htext⟩ : ∃ rest', text e = t ++ CR :: LF :: rest' := by
    have hdump : text e = compose .ALL true (dump_bytes .ALL true) e := dump_bytes_eq .ALL true e
    rw [hdump]
    unfold compose
    rw [dump_canonical_header true hh, hsplit]
    exact ⟨_, by rw [List.append_assoc, List.cons_append, List.cons_append]⟩
  have hdelim : get_line_delimiter (text e) = LF := by
    rw [htext]
    exact get_line_delimiter_crlf t rest' ht
  have hne : text e ≠ [] := by
    rw [htext]
    simp
  rw [hexport, import_data_lines .ALL hidden' Flag.noConfusion _ hne, hdelim]
  -- the last call of the parser is given the empty rest of the text
  have hlines : all_lines LF (text e) = lines LF (text e) ++ [[]] := by
    unfold all_lines
    rw [show (cut LF [] (text e)).2 = [] from hwhole]
    rfl
  rw [hlines]
  apply hparse [[]]
  intro l hl
  exact List.mem_singleton.mp hl

/-- A part with one field, a blank line and one line of text. -/
def text_part : MIME_Entity :=
  { new with
    header_ := [lit "A: b\r\n", lit "\r\n"]
    body_ := some (lit "x\r\n") }

/-- The first field of `one_part`. -/
def content_type_field (content_type : String) : Bytes :=
  lit ("Content-Type: " ++ content_type ++ "; boundary=b\r\n")

/-- A message of the given content type, whose only part is `text_part`. -/
def one_part (content_type : String) : MIME_Entity :=
  { new with
    header_ := [content_type_field content_type, lit "\r\n"]
    preamble_ := some (lit "p\r\n")
    child_ := [text_part]
    epilogue_ := some (lit "e\r\n") }

theorem one_field_canonical (field : Bytes) (hline : crlf_line field)
    (hstart : deref field ∉ [HIDDEN_HEADER_CHAR, SP, TAB, CR, LF]) :
    canonical_header [field, lit "\r\n"] [field] [lit "\r\n"] := by
  refine ⟨rfl, List.cons_ne_nil _ _, ?_, by decide, by decide⟩
  intro f hf
  rw [List.mem_singleton.mp hf]
  exact ⟨field, [], (List.append_nil field).symm, hline, hstart,
    fun c hc => absurd hc List.not_mem_nil⟩

theorem text_part_canonical : Canonical text_part :=
  Canonical.leaf _ _ _ (one_field_canonical _ ⟨lit "A: b", by decide, rfl⟩ (by decide))
    (by decide) (by decide) rfl rfl rfl (Or.inr ⟨lit "x", rfl⟩) (by decide)

theorem text_part_free (c : MIME_Entity) (hc : c ∈ [text_part]) :
    free_of (lit "--" ++ lit "b") (text c) := by
  rw [List.mem_singleton.mp hc]
  unfold free_of
  decide

theorem one_part_canonical : Canonical (one_part "multipart/mixed") := by
  have hboundary : (one_part "multipart/mixed").get_boundary = lit "b" := by decide
  refine Canonical.multipart _ _ _
    (one_field_canonical _ ⟨lit "Content-Type: multipart/mixed; boundary=b", by decide, by decide⟩
      (by decide))
    (by decide) (by decide) (by decide) rfl (Or.inr ⟨lit "p", rfl⟩) (by decide)
    (Or.inr ⟨lit "e", rfl⟩) (List.cons_ne_nil _ _) ?_ ?_ ?_ ?_
  · rw [hboundary]
    unfold free_of
    decide
  · rw [hboundary]
    unfold free_of
    decide
  · rw [hboundary]
    exact text_part_free
  · intro c hc
    rw [List.mem_singleton.mp hc]
    exact text_part_canonical

theorem one_part_first_break : first_break_crlf (one_part "multipart/mixed").header_.flatten := by
  refine ⟨lit "Content-Type: multipart/mixed; boundary=b", lit "\r\n", by decide, ?_⟩
  intro b hb
  constructor
  · intro heq
    subst heq
    exact absurd hb (by decide)
  · intro heq
    subst heq
    exact absurd hb (by decide)

theorem export_import_one_part :
    (import_data (export_data (one_part "multipart/mixed") .ALL true).1 .ALL true).1.tree
      = (one_part "multipart/mixed").tree :=
  export_import_canonical _ one_part_canonical one_part_first_break true true

/-- A leaf whose first line holds a bare CR. -/
def bare_cr : MIME_Entity := { new with header_ := [lit "A: b\rc\r\n", lit "\r\n"] }

/-- A multipart node that is a message. -/
def rfc822_parts : MIME_Entity := one_part "message/rfc822"

/-- **Two trees that do not come back.**  A multipart node of the content type
    `message/rfc822` is read back with a child the blank line of its header has
    added; a bare CR in the first line is taken for the line delimiter. -/
theorem export_import_loses :
    (canonical_header rfc822_parts.header_ [content_type_field "message/rfc822"] [lit "\r\n"] ∧
      rfc822_parts.get_boundary = lit "b" ∧ rfc822_parts.body = [] ∧
      crlf_text rfc822_parts.preamble ∧ is_blank rfc822_parts.preamble = false ∧
      crlf_text rfc822_parts.epilogue ∧ rfc822_parts.child_ ≠ [] ∧
      free_of (lit "--" ++ lit "b") rfc822_parts.preamble ∧
      free_of (lit "--" ++ lit "b") rfc822_parts.epilogue ∧
      (∀ c ∈ rfc822_parts.child_, free_of (lit "--" ++ lit "b") (text c) ∧ Canonical c) ∧
      (import_data (export_data rfc822_parts .ALL true).1 .ALL true).1.tree ≠ rfc822_parts.tree) ∧
    Canonical bare_cr ∧
      (import_data (export_data bare_cr .ALL true).1 .ALL true).1.tree ≠ bare_cr.tree := by
  refine ⟨⟨?_, by decide, rfl, Or.inr ⟨lit "p", rfl⟩, by decide, Or.inr ⟨lit "e", rfl⟩,
    List.cons_ne_nil _ _, ?_, ?_, ?_, ?_⟩, ?_, ?_⟩
  · exact one_field_canonical _
      ⟨lit "Content-Type: message/rfc822; boundary=b", by decide, by decide⟩ (by decide)
  · unfold free_of
    decide
  · unfold free_of
    decide
  · intro c hc
    refine ⟨text_part_free c hc, ?_⟩
    rw [List.mem_singleton.mp hc]
    exact text_part_canonical
  · -- two children come back for one
    rw [import_data_lines .ALL true Flag.noConfusion _ (by decide)]
    intro h
    exact absurd (congrArg (fun t => t.child.length) h) (by decide +kernel)
  · exact Canonical.leaf _ _ _ (one_field_canonical _ ⟨lit "A: b\rc", by decide, rfl⟩ (by decide))
      (by decide) (by decide) rfl rfl rfl (Or.inl rfl) (by decide)
  · -- the field comes back as two
    rw [import_data_lines .ALL true Flag.noConfusion _ (by decide)]
    intro h
    exact absurd (congrArg (fun t => t.header.length) h) (by decide +kernel)

end Aos
