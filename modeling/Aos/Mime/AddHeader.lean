/-
  Aos.Mime.AddHeader — a field added to a header, written and read again.

  The new field stands in front of the header, or behind its last line that is not
  blank.  Both are read back, but for the messages of which `get_line_delimiter`
  has not seen the line end: it does not look at the last byte, so a single line is
  read by another delimiter, and behind the new field by the right one.

  Main results:
    • `inserted`, `add_last_fields` — a new field among the parts of a leaf;
    • `lands`                       — where the line end has been seen;
    • `unbroken_lost`               — a message of one line;
    • `added_field_lands_iff`       — when a new field is read back.
-/
import Aos.Mime.Leaf
import Aos.Mime.SetCharset

namespace Aos

open Lib.Lines MIME_Entity

/-! ## §1. The new field. -/

/-- `add_first_header(field)`. -/
def MIME_Entity.add_first_header (e : MIME_Entity) (field : Bytes) : MIME_Entity :=
  { e with header_ := field :: e.header_ }

/-- A field other than "Content-Type:", folded or not. -/
structure Header_Field where
  name : Bytes
  text : Bytes
  folded : List Bytes
  ne_nil : name ≠ []
  token : ∀ c ∈ name, token_char c
  other : tolower_str name ≠ lit "content-type"
  unbroken : ∀ c ∈ text, c ≠ LF ∧ c ≠ CR
  folds : ∀ c ∈ folded, crlf_line c ∧ (deref c = SP ∨ deref c = TAB)

namespace Header_Field

variable (f : Header_Field)

/-- Its first line, without the line end. -/
def front : Bytes := f.name ++ HIDDEN_HEADER_CHAR :: f.text

def bytes : Bytes := f.front ++ [CR, LF] ++ f.folded.flatten

theorem front_unbroken : ∀ c ∈ f.front, c ≠ LF ∧ c ≠ CR := by
  have hno : ¬ token_char LF ∧ ¬ token_char CR := by decide
  intro c hc
  rcases List.mem_append.mp hc with hname | hc
  · constructor
    · rintro rfl
      exact hno.1 (f.token _ hname)
    · rintro rfl
      exact hno.2 (f.token _ hname)
  · rcases List.mem_cons.mp hc with rfl | htext
    · decide
    · exact f.unbroken c htext

theorem front_isLine {p : Bytes} (h : LF ∉ p) : IsLine LF (p ++ f.front ++ [CR, LF]) := by
  refine ⟨p ++ f.front ++ [CR], ?_, by simp⟩
  simp only [List.mem_append, List.mem_singleton, not_or]
  exact ⟨⟨h, fun hmem => (f.front_unbroken LF hmem).1 rfl⟩, by decide⟩

/-- It begins with its name. -/
theorem deref_front (rest : Bytes) :
    deref (f.front ++ rest) ∉ [HIDDEN_HEADER_CHAR, SP, TAB, CR, LF] := by
  have hno : ¬ token_char HIDDEN_HEADER_CHAR ∧ ¬ token_char SP ∧ ¬ token_char TAB ∧
      ¬ token_char CR ∧ ¬ token_char LF := by decide
  obtain ⟨c, name, hname⟩ := List.exists_cons_of_ne_nil f.ne_nil
  have htoken := f.token c (by rw [hname]; exact List.mem_cons_self)
  have hderef : deref (f.front ++ rest) = c := by
    rw [front, hname]
    rfl
  rw [hderef]
  simp only [List.mem_cons, List.not_mem_nil, or_false, not_or]
  refine ⟨?_, ?_, ?_, ?_, ?_⟩
  · rintro rfl
    exact hno.1 htoken
  · rintro rfl
    exact hno.2.1 htoken
  · rintro rfl
    exact hno.2.2.1 htoken
  · rintro rfl
    exact hno.2.2.2.1 htoken
  · rintro rfl
    exact hno.2.2.2.2 htoken

theorem whole : whole_field f.bytes := by
  have hline := f.front_isLine (p := []) List.not_mem_nil
  rw [List.nil_append] at hline
  exact whole_field_of_lines hline (f.deref_front _) fun c hc =>
    ⟨(f.folds c hc).1.isLine, (f.folds c hc).2⟩

theorem visible : deref f.bytes ≠ HIDDEN_HEADER_CHAR := fun h => by
  have hderef := f.whole.deref
  rw [h] at hderef
  exact hderef List.mem_cons_self

theorem not_hidden (no_hidden_header : Bool) : is_hidden no_hidden_header f.bytes = false := by
  unfold is_hidden
  rw [decide_eq_false f.visible, Bool.and_false, Bool.and_false]

/-- Its first line break is a CRLF. -/
theorem delimiter {p : Bytes} (h : ∀ c ∈ p, c ≠ LF ∧ c ≠ CR) (rest : Bytes) :
    get_line_delimiter (p ++ (f.bytes ++ rest)) = LF := by
  have hsplit : p ++ (f.bytes ++ rest)
      = (p ++ f.front) ++ CR :: LF :: (f.folded.flatten ++ rest) := by
    unfold bytes
    simp
  rw [hsplit]
  refine get_line_delimiter_crlf _ _ fun c hc => ?_
  rcases List.mem_append.mp hc with hp | hfront
  · exact h c hp
  · exact f.front_unbroken c hfront

theorem delimiter_first (rest : Bytes) : get_line_delimiter (f.bytes ++ rest) = LF :=
  f.delimiter (p := []) (fun _ hc => absurd hc List.not_mem_nil) rest

theorem leaf_delimiter (fields blanks : MIME_Header_List) (body : Bytes) :
    get_line_delimiter (leaf_text (f.bytes :: fields) blanks body) = LF := by
  rw [leaf_text, List.flatten_cons, List.append_assoc, List.append_assoc]
  exact f.delimiter_first _

/-- It is no "content-type:" field. -/
theorem not_content_type : strncasecmp f.bytes (lit "content-type:") 13 ≠ 0 := by
  intro h
  have hfree : f.name.findIdx? (· = HIDDEN_HEADER_CHAR) = none := by
    have hno : ¬ token_char HIDDEN_HEADER_CHAR := by decide
    rw [List.findIdx?_eq_none_iff]
    rintro _ hc
    refine decide_eq_false ?_
    rintro rfl
    exact hno (f.token _ hc)
  have hct : is_content_type f.bytes := h
  have hcolon := field_colon hct
  have hsplit : f.bytes
      = f.name ++ HIDDEN_HEADER_CHAR :: (f.text ++ [CR, LF] ++ f.folded.flatten) := by
    unfold bytes front
    simp
  -- the first colon stands behind the name
  have hlen : f.name.length = 12 := by
    rw [hsplit, List.findIdx?_append, hfree, List.findIdx?_cons] at hcolon
    simpa using hcolon
  have hname := field_name hct
  have htake : f.bytes.take 13 = f.name ++ [HIDDEN_HEADER_CHAR] := by
    rw [hsplit, List.take_append, List.take_of_length_le (by omega), hlen]
    rfl
  rw [htake, tolower_str_append] at hname
  have hlit : lit "content-type:" = lit "content-type" ++ tolower_str [HIDDEN_HEADER_CHAR] := by
    decide
  rw [hlit] at hname
  exact f.other (List.append_cancel_right hname)

end Header_Field

/-! ## §2. Among the parts of a leaf. -/

/-- `hs'` is `hs` with the field put behind the last line that is not blank. -/
def behind_fields (hs : MIME_Header_List) (field : Bytes) (hs' : MIME_Header_List) : Prop :=
  ∃ fields blanks, hs = fields ++ blanks ∧
    (∀ l, fields.getLast? = some l → l ≠ [] ∧ is_blank l = false) ∧
    (∀ l ∈ blanks, l = [] ∨ is_blank l = true) ∧ hs' = fields ++ field :: blanks

/-- Where `add_last_header` puts a field. -/
theorem add_last_fields {e : MIME_Entity} {fields blanks : MIME_Header_List}
    (he : e.header_ = fields ++ blanks)
    (hfields : ∀ l, fields.getLast? = some l → l ≠ [] ∧ is_blank l = false)
    (hblanks : ∀ l ∈ blanks, l = [] ∨ is_blank l = true) (field : Bytes) :
    (e.add_last_header field).header_ = fields ++ field :: blanks := by
  have hdrop : (fields ++ blanks).rdropWhile (fun l => decide (l = [] ∨ is_blank l = true))
      = fields := by
    rw [List.rdropWhile, List.reverse_append, List.dropWhile_append_of_pos
      fun l hl => decide_eq_true (hblanks l (List.mem_reverse.mp hl)), ← List.rdropWhile,
      List.rdropWhile_eq_self_iff]
    intro hne hlast
    obtain ⟨hnil, hblank⟩ := hfields _ (List.getLast?_eq_getLast_of_ne_nil hne)
    rcases of_decide_eq_true hlast with h | h
    · exact hnil h
    · rw [hblank] at h
      cases h
  have htake : (fields ++ blanks).rtakeWhile (fun l => decide (l = [] ∨ is_blank l = true))
      = blanks := by
    have hsplit := List.rdropWhile_append_rtakeWhile
      (p := fun l : Bytes => decide (l = [] ∨ is_blank l = true)) (l := fields ++ blanks)
    rw [hdrop] at hsplit
    exact List.append_cancel_left hsplit
  show e.header_.rdropWhile _ ++ field :: e.header_.rtakeWhile _ = _
  rw [he]
  exact congrArg₂ (fun a b => a ++ field :: b) hdrop htake

section Parts

variable {A B blanks : MIME_Header_List} {body : Bytes}

/-- **A new field among the parts.** -/
theorem inserted (h : Leaf_Parts (A ++ B) blanks body) (f : Header_Field) :
    Leaf_Parts (A ++ f.bytes :: B) blanks body where
  whole g hg := by
    rcases List.mem_append.mp hg with hA | hB
    · exact h.whole g (List.mem_append_left _ hA)
    · rcases List.mem_cons.mp hB with rfl | hB
      · exact f.whole
      · exact h.whole g (List.mem_append_right _ hB)
  blank := h.blank
  start := h.start
  empty := h.empty
  boundary := (leaf_insert A B f.not_content_type).1.trans h.boundary
  content_type := (leaf_insert A B f.not_content_type).2.trans h.content_type

/-- A field of another name than "content-type:" may be left out. -/
theorem left_out {g : Bytes} (h : Leaf_Parts (A ++ g :: B) blanks body)
    (hg : strncasecmp g (lit "content-type:") 13 ≠ 0) : Leaf_Parts (A ++ B) blanks body where
  whole f hf := h.whole f (((List.sublist_cons_self g B).append_left A).subset hf)
  blank := h.blank
  start := h.start
  empty := h.empty
  boundary := (leaf_insert A B hg).1.symm.trans h.boundary
  content_type := (leaf_insert A B hg).2.symm.trans h.content_type

/-- **The delimiter with the new field**: the first line break is that of the first field. -/
theorem inserted_delimiter (hA : ∀ g ∈ A, whole_field g) (hbreaks : lf_breaks A.flatten)
    (f : Header_Field) : get_line_delimiter (leaf_text (A ++ f.bytes :: B) blanks body) = LF := by
  by_cases hnone : A = []
  · rw [hnone]
    exact f.leaf_delimiter B blanks body
  · have hlf : LF ∈ A.flatten := by
      obtain ⟨g, gs, hg⟩ := List.exists_cons_of_ne_nil hnone
      have hmem : g ∈ A := by rw [hg]; exact List.mem_cons_self
      exact List.mem_flatten.mpr ⟨g, hmem, List.mem_of_getLast? (hA g hmem).getLast?⟩
    have hmore : f.bytes ++ (B.flatten ++ (blanks.flatten ++ body)) ≠ [] :=
      List.append_ne_nil_of_left_ne_nil f.whole.ne_nil _
    have hsplit : leaf_text (A ++ f.bytes :: B) blanks body
        = A.flatten ++ (f.bytes ++ (B.flatten ++ (blanks.flatten ++ body))) := by
      rw [leaf_text, List.flatten_append, List.flatten_cons]
      simp only [List.append_assoc]
    rw [hsplit]
    refine delimiter_of_breaks hbreaks hlf ⟨LF, ?_, Or.inl rfl⟩
    rw [List.dropLast_append_of_ne_nil hmore]
    exact List.mem_append_left _ hlf

end Parts

/-- A header of one line feed. -/
theorem lone : Leaf_Parts [] [[LF]] [] where
  whole f hf := absurd hf List.not_mem_nil
  blank b hb := by
    rw [List.mem_singleton.mp hb]
    exact ⟨⟨[], List.not_mem_nil, rfl⟩, by decide⟩
  start := by decide
  empty := fun h => absurd h (by decide)
  boundary := by decide
  content_type := by decide

/-! ## §3. The new field is read back. -/

namespace Leaf_Message

variable {no_hidden_header : Bool} (m : Leaf_Message no_hidden_header) (f : Header_Field)
  (hidden hidden' : Bool)

/-- Both additions are read back: in front of the header, or behind its last line that is not
    blank, and the body is the same. -/
def Lands : Prop :=
  (((m.entity.add_first_header f.bytes).read_again hidden hidden').header_
      = f.bytes :: m.entity.header_ ∧
    ((m.entity.add_first_header f.bytes).read_again hidden hidden').body = m.entity.body) ∧
  behind_fields m.entity.header_ f.bytes
      ((m.entity.add_last_header f.bytes).read_again hidden hidden').header_ ∧
    ((m.entity.add_last_header f.bytes).read_again hidden hidden').body = m.entity.body

/-- The last field is no blank line. -/
theorem last_field {fields : MIME_Header_List} (h : ∀ g ∈ fields, whole_field g) {l : Bytes}
    (hl : fields.getLast? = some l) : l ≠ [] ∧ is_blank l = false := by
  have hwhole := h l (List.mem_of_getLast? hl)
  have hderef := hwhole.deref
  simp only [List.mem_cons, List.not_mem_nil, or_false, not_or] at hderef
  exact ⟨hwhole.ne_nil, decide_eq_false (not_or.mpr hderef.2.2.2)⟩

/-- What stands behind the fields. -/
theorem tail_blank {fields blanks : MIME_Header_List} {body : Bytes}
    (h : Leaf_Parts fields blanks body) :
    ∀ l ∈ (if blanks = [] then [[]] else blanks), l = [] ∨ is_blank l = true := by
  intro l hl
  split_ifs at hl
  · exact Or.inl (List.mem_singleton.mp hl)
  · exact Or.inr (h.blank l hl).2

/-- **Where the line end has been seen** both additions are read back. -/
theorem lands (hd : get_line_delimiter m.text = LF) : m.Lands f hidden hidden' := by
  have hparts := m.parts hd
  have hentity := m.entity_eq hd
  have hheader := read_leaf_header m.fields m.blanks m.content
  have hbody := read_leaf_body hparts
  have hbare := read_leaf_bare hparts
  rw [← hentity] at hheader hbody hbare
  obtain ⟨hp, he, hc⟩ := hbare
  refine ⟨?_, ?_⟩
  · -- in front
    have hnew := inserted (A := []) hparts f
    have hfirst := f.leaf_delimiter m.fields m.blanks m.content
    have hread := read_again_parts hnew (e := m.entity.add_first_header f.bytes) hp he hc
      (by rw [add_first_header, hheader]; rfl) hbody hfirst hidden hidden'
    rw [hread, read_leaf_header, read_leaf_body hnew, hheader, hbody]
    exact ⟨rfl, rfl⟩
  · have hlast := fun l => last_field hparts.whole (l := l)
    have hblank := tail_blank hparts
    have hnew : Leaf_Parts (m.fields ++ [f.bytes]) m.blanks m.content :=
      inserted (B := []) (by rw [List.append_nil]; exact hparts) f
    have hadded := add_last_fields hheader hlast hblank f.bytes
    -- behind the last field
    have hbreak : get_line_delimiter (leaf_text (m.fields ++ [f.bytes]) m.blanks m.content) = LF :=
      inserted_delimiter hparts.whole m.fields_breaks f
    have hread := read_again_parts hnew (e := m.entity.add_last_header f.bytes) hp he hc
      (by rw [hadded, List.append_assoc]; rfl) hbody hbreak hidden hidden'
    rw [hread, read_leaf_body hnew, hbody]
    refine ⟨⟨m.fields, _, hheader, hlast, hblank, ?_⟩, rfl⟩
    rw [read_leaf_header, List.append_assoc]
    rfl

end Leaf_Message

/-! ## §4. Messages of one line. -/

section Fields

variable (no_hidden_header : Bool)

/-- The header that is read by line feeds. -/
theorem import_header {x : Bytes} (hd : get_line_delimiter x = LF) :
    (import_data x .ALL no_hidden_header).1.header_
      = (new.parse_lines no_hidden_header true (all_lines LF x)).header_ := by
  have hne : x ≠ [] := by
    rintro rfl
    exact absurd hd (by decide)
  rw [import_data_lines .ALL no_hidden_header Flag.noConfusion x hne, hd]
  rfl

/-- No field is empty where no line is. -/
theorem add_fields_ne_nil (ls : List Bytes) (hls : ∀ l ∈ ls, l ≠ []) :
    ∀ hs : MIME_Header_List, (∀ f ∈ hs, f ≠ []) → ∀ f ∈ add_fields no_hidden_header hs ls, f ≠ [] := by
  induction ls with
  | nil => exact fun hs hhs => hhs
  | cons l ls ih =>
      intro hs hhs
      refine ih (fun l' hl' => hls l' (List.mem_cons_of_mem l hl')) _ fun f hf => ?_
      unfold add_field at hf
      split_ifs at hf with hcont hne hvisible
      · obtain ⟨init, last, rfl⟩ := (List.eq_nil_or_concat' hs).resolve_left hne
        rw [append_to_last_concat] at hf
        rcases List.mem_append.mp hf with hold | hnew
        · exact hhs f (List.mem_append_left _ hold)
        · rw [List.mem_singleton.mp hnew]
          exact List.append_ne_nil_of_left_ne_nil (hhs last (by simp)) l
      · exact hhs f hf
      · rcases List.mem_append.mp hf with hold | hnew
        · exact hhs f hold
        · rw [List.mem_singleton.mp hnew]
          exact hls l List.mem_cons_self
      · exact hhs f hf

/-- The fields hold nothing but the lines. -/
theorem add_fields_sublist (ls : List Bytes) : ∀ hs : MIME_Header_List,
    (add_fields no_hidden_header hs ls).flatten.Sublist (hs.flatten ++ ls.flatten) := by
  induction ls with
  | nil =>
      intro hs
      rw [List.flatten_nil, List.append_nil]
      exact List.Sublist.refl _
  | cons l ls ih =>
      intro hs
      have hstep : (add_field no_hidden_header hs l).flatten.Sublist (hs.flatten ++ l) := by
        unfold add_field
        split_ifs with hcont hne hvisible
        · rw [(append_to_last_flatten l hs hne).1]
        · exact List.sublist_append_left _ _
        · rw [List.flatten_append, List.flatten_singleton]
        · exact List.sublist_append_left _ _
      rw [List.flatten_cons, ← List.append_assoc]
      exact (ih _).trans (hstep.append_right _)

theorem dump_header_sublist (hs : MIME_Header_List) :
    (dump_header no_hidden_header hs).Sublist hs.flatten := by
  induction hs with
  | nil => exact List.Sublist.refl _
  | cons f hs ih =>
      rw [dump_header, List.flatten_cons]
      split_ifs
      · exact ih.trans (List.sublist_append_right _ _)
      · exact ih.append_left f

/-- Lines of which none is blank make fields only. -/
theorem header_of_fields (ls : List Bytes) (h : ∀ l ∈ ls, is_blank l = false) :
    (new.parse_lines no_hidden_header true ls).header_ = add_fields no_hidden_header [] ls := by
  rw [new_eq_in_header, parse_fields _ _ _ h]
  rfl

/-- A text without a line break is one line. -/
theorem all_lines_free {y : Bytes} (h : ∀ c ∈ y, c ≠ LF ∧ c ≠ CR) :
    all_lines LF y = [y] ∧ is_blank y = false := by
  have hfree : LF ∉ y := fun hmem => (h LF hmem).1 rfl
  have hcut := cut_text LF y [] [] hfree
  rw [List.append_nil, List.nil_append] at hcut
  refine ⟨by rw [all_lines, hcut]; rfl, ?_⟩
  cases y with
  | nil => decide
  | cons a y =>
      have ha := h a List.mem_cons_self
      exact decide_eq_false (not_or.mpr ⟨ha.2, ha.1⟩)

/-- Behind whole lines there is the empty one, which makes a field. -/
theorem header_of_whole {x : Bytes} (ls : List Bytes) (hline : ∀ l ∈ ls, IsLine LF l)
    (hblank : ∀ l ∈ ls, is_blank l = false) (hx : x = ls.flatten) :
    (new.parse_lines no_hidden_header true (all_lines LF x)).header_
      = add_fields no_hidden_header [] ls ++ [[]] := by
  obtain ⟨hw, hl⟩ := lines_flatten hline
  have hall : all_lines LF x = ls ++ [[]] := by
    have happend := all_lines_append hw []
    rw [List.append_nil, hl, ← hx] at happend
    exact happend
  have hblanks : ∀ l ∈ ls ++ [[]], is_blank l = false := by
    intro l hl
    rcases List.mem_append.mp hl with hl | hl
    · exact hblank l hl
    · rw [List.mem_singleton.mp hl]
      decide
  have hstep : add_fields no_hidden_header [] (ls ++ [[]])
      = add_field no_hidden_header (add_fields no_hidden_header [] ls) [] := List.foldl_concat ..
  rw [hall, header_of_fields _ _ hblanks, hstep, add_field_empty]

end Fields

namespace Leaf_Message

variable {no_hidden_header : Bool} (m : Leaf_Message no_hidden_header) (f : Header_Field)
  (hidden hidden' : Bool)

section Unbroken

variable (hno : ∀ c ∈ m.text.dropLast, c ≠ LF ∧ c ≠ CR)

include hno

/-- The message is one line. -/
theorem one_line : ∃ t, m.text = t ++ [LF] ∧ ∀ c ∈ t, c ≠ LF ∧ c ≠ CR := by
  have hmem : LF ∈ m.text := by
    rw [← all_lines_flatten LF m.text, lines_split (all_lines LF m.text), List.flatten_append]
    exact List.mem_append_left _ m.header_break
  rw [← List.dropLast_append_getLast m.ne_nil] at hmem
  rcases List.mem_append.mp hmem with hfront | hlast
  · exact absurd rfl (hno LF hfront).1
  · refine ⟨m.text.dropLast, ?_, hno⟩
    rw [List.mem_singleton.mp hlast]
    exact (List.dropLast_append_getLast m.ne_nil).symm

/-- It is cut by the byte that stands for no delimiter. -/
theorem unbroken_lines :
    m.entity = new.parse_lines no_hidden_header true (all_lines NO_DELIMITER m.text) := by
  rw [entity, import_data_lines .ALL no_hidden_header Flag.noConfusion _ m.ne_nil,
    (get_line_delimiter_none_iff m.text).mpr hno]
  rfl

theorem unbroken_ne_nil : ∀ l ∈ all_lines NO_DELIMITER m.text, l ≠ [] := by
  obtain ⟨t, ht, -⟩ := m.one_line hno
  intro l hl
  rcases List.mem_append.mp hl with hline | hlast
  · exact (cut_isLine NO_DELIMITER m.text [] List.not_mem_nil l hline).ne_nil
  · rw [List.mem_singleton.mp hlast]
    intro hnil
    have hend := (cut_carry_nil_iff NO_DELIMITER m.text m.ne_nil).mp hnil
    rw [ht, List.getLast?_concat] at hend
    exact absurd hend (by decide)

/-- There is nothing behind the header. -/
theorem unbroken_content : content_lines (all_lines NO_DELIMITER m.text) = [] := by
  by_contra hne
  obtain ⟨l, ls, hc⟩ := List.exists_cons_of_ne_nil hne
  obtain ⟨-, hb⟩ := content_lines_cons _ l ls hc
  obtain ⟨b, bs, hbs⟩ := List.exists_cons_of_ne_nil hb
  have hblank := blank_lines_blank (all_lines NO_DELIMITER m.text) b
    (by rw [hbs]; exact List.mem_cons_self)
  obtain ⟨c, s, rfl, hbreak⟩ := is_blank_cases hblank
  have hl : l ≠ [] := m.unbroken_ne_nil hno l (by
    rw [lines_split (all_lines NO_DELIMITER m.text), hc]
    exact List.mem_append_right _ List.mem_cons_self)
  -- the blank line begins with a line break in front of the last byte
  have htext : m.text = ((field_lines (all_lines NO_DELIMITER m.text)).flatten ++ [c])
      ++ (s ++ (bs.flatten ++ (l ++ ls.flatten))) := by
    conv_lhs => rw [← all_lines_flatten NO_DELIMITER m.text,
      lines_split (all_lines NO_DELIMITER m.text), hc, hbs]
    simp
  have hbehind : s ++ (bs.flatten ++ (l ++ ls.flatten)) ≠ [] := by simp [hl]
  have hmem : c ∈ m.text.dropLast := by
    rw [htext, List.dropLast_append_of_ne_nil hbehind]
    simp
  -- and there is none
  have hnone := hno c hmem
  rcases hbreak with rfl | rfl
  · exact hnone.2 rfl
  · exact hnone.1 rfl

/-- The entity is its header. -/
theorem unbroken_bare :
    m.entity.preamble_ = none ∧ m.entity.epilogue_ = none ∧ m.entity.child_ = [] ∧
      m.entity.body = [] := by
  have hlines := m.unbroken_lines hno
  have hbound := m.boundary
  have hct := m.content_type
  rw [show (import_data m.text .ALL no_hidden_header).1 = m.entity from rfl, hlines] at hbound hct
  have hmsg := (leaf_of_lines no_hidden_header true _ hbound hct).2
  rw [hlines, parse_message]
  by_cases hb : blank_lines (all_lines NO_DELIMITER m.text) = []
  · rw [if_pos hb]
    exact ⟨rfl, rfl, rfl, rfl⟩
  · rw [if_neg hb, if_pos (m.unbroken_content hno)]
    refine ⟨rfl, rfl, ?_, rfl⟩
    show (if is_message _ then [new] else []) = []
    rw [hmsg]
    rfl

theorem unbroken_header :
    m.entity.header_ = fields_of no_hidden_header (all_lines NO_DELIMITER m.text)
      ++ blank_lines (all_lines NO_DELIMITER m.text) := by
  rw [m.unbroken_lines hno, header_of_message]

theorem unbroken_header_ne_nil : ∀ l ∈ m.entity.header_, l ≠ [] := by
  have hne := m.unbroken_ne_nil hno
  have hsplit := lines_split (all_lines NO_DELIMITER m.text)
  rw [m.unbroken_header hno]
  intro l hl
  rcases List.mem_append.mp hl with hfield | hblank
  · refine add_fields_ne_nil no_hidden_header _ (fun a ha => hne a ?_) []
      (fun g hg => absurd hg List.not_mem_nil) l hfield
    rw [hsplit]
    exact List.mem_append_left _ (List.mem_append_left _ ha)
  · refine hne l ?_
    rw [hsplit]
    exact List.mem_append_left _ (List.mem_append_right _ hblank)

/-- What is written of the header has a line break at its end only. -/
theorem unbroken_dump : ∃ y, (∀ c ∈ y, c ≠ LF ∧ c ≠ CR) ∧
    (dump_header hidden m.entity.header_ = y ∨ dump_header hidden m.entity.header_ = y ++ [LF]) := by
  obtain ⟨t, ht, hfree⟩ := m.one_line hno
  have hsub : (dump_header hidden m.entity.header_).Sublist (t ++ [LF]) := by
    refine (dump_header_sublist hidden _).trans ?_
    rw [← ht, m.unbroken_header hno, List.flatten_append]
    conv_rhs => rw [← all_lines_flatten NO_DELIMITER m.text,
      lines_split (all_lines NO_DELIMITER m.text), m.unbroken_content hno, List.append_nil,
      List.flatten_append]
    exact (add_fields_sublist no_hidden_header _ []).append_right _
  obtain ⟨y, z, hyz, hy, hz⟩ := List.sublist_append_iff.mp hsub
  refine ⟨y, fun c hc => hfree c (hy.subset hc), ?_⟩
  rw [hyz]
  rcases List.sublist_singleton.mp hz with rfl | rfl
  · exact Or.inl (List.append_nil y)
  · exact Or.inr rfl

/-- A lone line feed is a blank line by any delimiter. -/
theorem unbroken_lands (h : m.entity.header_ = [[LF]]) : m.Lands f hidden hidden' := by
  obtain ⟨hp, he, hc, hbody⟩ := m.unbroken_bare hno
  have hlone : Leaf_Parts [f.bytes] [[LF]] [] := inserted (A := []) (B := []) lone f
  have hd := f.leaf_delimiter [] [[LF]] []
  have hread : ∀ {e : MIME_Entity}, e.preamble_ = none → e.epilogue_ = none → e.child_ = [] →
      e.body = [] → e.header_ = [f.bytes, [LF]] →
      (e.read_again hidden hidden').header_ = [f.bytes, [LF]] ∧
        (e.read_again hidden hidden').body = [] := by
    intro e hp he hc hbody hheader
    rw [read_again_parts hlone hp he hc hheader hbody hd, read_leaf_header, read_leaf_body hlone]
    exact ⟨rfl, rfl⟩
  have hnone : ∀ l, ([] : MIME_Header_List).getLast? = some l → l ≠ [] ∧ is_blank l = false :=
    fun l hl => absurd hl (by simp)
  have hblank : ∀ l ∈ [[LF]], l = [] ∨ is_blank l = true := by decide
  have hadded := add_last_fields (show m.entity.header_ = [] ++ [[LF]] from h) hnone hblank f.bytes
  obtain ⟨hfirst, hfirstb⟩ := hread (e := m.entity.add_first_header f.bytes) hp he hc hbody
    (by rw [add_first_header, h])
  obtain ⟨hlast, hlastb⟩ := hread (e := m.entity.add_last_header f.bytes) hp he hc hbody hadded
  refine ⟨⟨by rw [hfirst, h], by rw [hfirstb, hbody]⟩, ⟨[], [[LF]], h, hnone, hblank, hlast⟩, ?_⟩
  rw [hlastb, hbody]

/-- What is written with another header. -/
theorem unbroken_read_again {e : MIME_Entity} (hp : e.preamble_ = m.entity.preamble_)
    (he : e.epilogue_ = m.entity.epilogue_) (hc : e.child_ = m.entity.child_)
    (hbody : e.body = m.entity.body) {x : Bytes} (hx : dump_header hidden e.header_ = x) :
    e.read_again hidden hidden' = (import_data x .ALL hidden').1 := by
  obtain ⟨hp', he', hc', hbody'⟩ := m.unbroken_bare hno
  rw [read_again, export_leaf e hidden (hp.trans hp') (he.trans he') (hc.trans hc'),
    hbody.trans hbody', List.append_nil, hx]

/-- With the new field in front. -/
theorem unbroken_first_dump {x : Bytes} (hx : dump_header hidden m.entity.header_ = x) :
    (m.entity.add_first_header f.bytes).read_again hidden hidden'
      = (import_data (f.bytes ++ x) .ALL hidden').1 := by
  refine m.unbroken_read_again hidden hidden' hno (e := m.entity.add_first_header f.bytes) rfl rfl
    rfl rfl ?_
  show dump_header hidden (f.bytes :: m.entity.header_) = _
  rw [dump_header, if_neg (by rw [f.not_hidden]; exact Bool.false_ne_true), hx]

theorem unbroken_first {x : Bytes} (hx : dump_header hidden m.entity.header_ = x) {ls : List Bytes}
    (hls : all_lines LF x = ls) (hblank : ∀ l ∈ ls, is_blank l = false) :
    ((m.entity.add_first_header f.bytes).read_again hidden hidden').header_
      = add_fields hidden' [f.bytes] ls := by
  have hlines : ∀ l ∈ lines LF f.bytes ++ ls, is_blank l = false := by
    intro l hl
    rcases List.mem_append.mp hl with hfield | hrest
    · have hone : ∀ g ∈ [f.bytes], whole_field g := fun g hg => List.mem_singleton.mp hg ▸ f.whole
      exact field_lines_no_blank [f.bytes] hone l (by simpa using hfield)
    · exact hblank l hrest
  rw [m.unbroken_first_dump f hidden hidden' hno hx,
    import_header hidden' (f.delimiter_first x), all_lines_append f.whole.1, hls,
    header_of_fields hidden' _ hlines]
  show (lines LF f.bytes ++ ls).foldl (add_field hidden') [] = _
  rw [List.foldl_append]
  exact congrArg (ls.foldl (add_field hidden') ·) (add_whole_field hidden' f.bytes f.whole [])

/-- Where the line end of the message is gone, the field behind it is lost. -/
theorem unbroken_last {y : Bytes} (hne : y ≠ []) (hfree : ∀ c ∈ y, c ≠ LF ∧ c ≠ CR)
    (hy : dump_header hidden [y] = y) (hH : m.entity.header_ = [y]) :
    ¬ behind_fields m.entity.header_ f.bytes
      ((m.entity.add_last_header f.bytes).read_again hidden hidden').header_ := by
  have hblank := (all_lines_free hfree).2
  have hhidden : is_hidden hidden y = false := by
    by_contra htrue
    rw [dump_header, if_pos (by simpa using htrue)] at hy
    exact hne hy.symm
  have hadded := add_last_fields (show m.entity.header_ = [y] ++ [] from hH)
    (fun l hl => by rw [← Option.some.inj hl]; exact ⟨hne, hblank⟩)
    (fun l hl => absurd hl List.not_mem_nil) f.bytes
  have hdump : dump_header hidden (m.entity.add_last_header f.bytes).header_ = y ++ f.bytes := by
    rw [hadded, List.singleton_append, dump_header, dump_header, hhidden, f.not_hidden]
    exact congrArg (y ++ ·) (List.append_nil _)
  have hd : get_line_delimiter (y ++ f.bytes) = LF := by
    have hbreak := f.delimiter hfree []
    rwa [List.append_nil] at hbreak
  -- the first line of the field has become the end of the message's line
  have hsplit : y ++ f.bytes = ((y ++ f.front ++ [CR, LF]) :: f.folded).flatten := by
    rw [List.flatten_cons, Header_Field.bytes]
    simp only [List.append_assoc]
  have hfirst : is_blank (y ++ f.front ++ [CR, LF]) = false := by
    obtain ⟨a, t, rfl⟩ := List.exists_cons_of_ne_nil hne
    exact hblank
  have hread := header_of_whole hidden' ((y ++ f.front ++ [CR, LF]) :: f.folded)
    (fun l hl => ?_) (fun l hl => ?_) hsplit
  · rw [m.unbroken_read_again hidden hidden' hno (e := m.entity.add_last_header f.bytes) rfl rfl rfl
      rfl hdump, import_header hidden' hd, hread]
    rintro ⟨fields, blanks, hparts, -, hblanks, hlast⟩
    rw [hH] at hparts
    cases fields with
    | nil =>
        rcases hblanks y (by rw [← List.nil_append blanks, ← hparts]; exact List.mem_cons_self)
          with h | h
        · exact hne h
        · rw [hblank] at h
          cases h
    | cons g fields =>
        obtain ⟨-, hnone⟩ := List.cons.inj hparts
        obtain ⟨rfl, rfl⟩ := List.append_eq_nil_iff.mp hnone.symm
        have hend := congrArg List.getLast? hlast
        rw [List.getLast?_concat, List.getLast?_concat] at hend
        exact f.whole.ne_nil (Option.some.inj hend).symm
  · rcases List.mem_cons.mp hl with rfl | hfold
    · exact f.front_isLine fun hmem => (hfree LF hmem).1 rfl
    · exact (f.folds l hfold).1.isLine
  · rcases List.mem_cons.mp hl with rfl | hfold
    · exact hfirst
    · rcases (f.folds l hfold).2 with h | h
      · unfold is_blank
        rw [h]
        decide
      · unfold is_blank
        rw [h]
        decide

/-- **Read by another delimiter** a message of one line is not added to. -/
theorem unbroken_lost (h : m.entity.header_ ≠ [[LF]]) : ¬ m.Lands f hidden hidden' := by
  rintro ⟨⟨hfirst, -⟩, hlast, -⟩
  have hne := m.unbroken_header_ne_nil hno
  -- the empty line is no field of the message
  have hempty : [] ∉ f.bytes :: m.entity.header_ := by
    rw [List.mem_cons, not_or]
    exact ⟨Ne.symm f.whole.ne_nil, fun hmem => hne [] hmem rfl⟩
  -- what is written of the header, with the line end or without it
  obtain ⟨y, hfree, hy | hy⟩ := m.unbroken_dump hidden hno
  · obtain ⟨hlines, hblank⟩ := all_lines_free hfree
    rw [m.unbroken_first f hidden hidden' hno hy hlines
      (fun l hl => List.mem_singleton.mp hl ▸ hblank)] at hfirst
    change add_field hidden' [f.bytes] y = _ at hfirst
    by_cases hnil : y = []
    · -- the field alone: the empty line behind it is taken for another
      rw [hnil, add_field_empty] at hfirst
      exact hempty (hfirst ▸ List.mem_append_right _ List.mem_cons_self)
    · -- the line is a field of its own, or there is none
      have hsome : m.entity.header_ ≠ [] := by
        intro hnone
        rw [hnone] at hy
        exact hnil hy.symm
      unfold add_field at hfirst
      split_ifs at hfirst with hcont hne' hvisible
      · exact hsome (List.cons.inj hfirst).2.symm
      · exact hsome (List.cons.inj hfirst).2.symm
      · have hH : m.entity.header_ = [y] := (List.cons.inj hfirst).2.symm
        exact m.unbroken_last f hidden hidden' hno hnil hfree (hH ▸ hy) hH hlast
      · exact hsome (List.cons.inj hfirst).2.symm
  · have hline : IsLine LF (y ++ [LF]) := ⟨y, fun hmem => (hfree LF hmem).1 rfl, rfl⟩
    have hlines : all_lines LF (y ++ [LF]) = [y ++ [LF], []] := by
      have happend := all_lines_append hline.whole []
      rw [List.append_nil, hline.lines] at happend
      exact happend
    by_cases hnil : y = []
    · -- it is read as a blank line
      rw [hnil, List.nil_append] at hy
      have hparts := inserted (A := []) (B := []) lone f
      have hread := import_leaf hparts hidden' (f.leaf_delimiter [] [[LF]] [])
      have htext : f.bytes ++ [LF] = leaf_text ([] ++ [f.bytes]) [[LF]] [] := by simp [leaf_text]
      rw [m.unbroken_first_dump f hidden hidden' hno hy, htext, hread, read_leaf_header] at hfirst
      exact h (List.cons.inj hfirst).2.symm
    · have hblank : ∀ l ∈ [y ++ [LF], []], is_blank l = false := by
        obtain ⟨a, t, rfl⟩ := List.exists_cons_of_ne_nil hnil
        have ha : is_blank (a :: t) = false := (all_lines_free hfree).2
        intro l hl
        rcases List.mem_cons.mp hl with rfl | hl
        · exact ha
        · rw [List.mem_singleton.mp hl]
          decide
      -- the empty line behind the message's is taken for a field
      rw [m.unbroken_first f hidden hidden' hno hy hlines hblank] at hfirst
      change add_field hidden' (add_field hidden' [f.bytes] (y ++ [LF])) [] = _ at hfirst
      rw [add_field_empty] at hfirst
      exact hempty (hfirst ▸ List.mem_append_right _ List.mem_cons_self)

end Unbroken

/-- **A field added to a header is read back** in front of it and behind its last line that is not
    blank, where the message has a line break in front of its last byte or its header is a lone
    line feed.  Otherwise the message is one line and `get_line_delimiter`, that does not look at
    the last byte, has not seen its end. -/
theorem added_field_lands_iff :
    m.Lands f hidden hidden'
      ↔ (∃ c ∈ m.text.dropLast, c = LF ∨ c = CR) ∨ m.entity.header_ = [[LF]] := by
  by_cases hbreak : ∃ c ∈ m.text.dropLast, c = LF ∨ c = CR
  · exact iff_of_true (m.lands f hidden hidden' (m.delimiter hbreak)) (Or.inl hbreak)
  · have hno : ∀ c ∈ m.text.dropLast, c ≠ LF ∧ c ≠ CR :=
      fun c hc => not_or.mp fun hor => hbreak ⟨c, hc, hor⟩
    constructor
    · intro h
      by_contra hnone
      exact m.unbroken_lost f hidden hidden' hno (fun hlone => hnone (Or.inr hlone)) h
    · rintro (h | h)
      · exact absurd h hbreak
      · exact m.unbroken_lands f hidden hidden' hno h

/-- The message "A: b\n" is not added to. -/
theorem added_field_lost : ∃ (m : Leaf_Message false) (f : Header_Field),
    m.text = lit "A: b" ++ [LF] ∧ f.bytes = lit "X: y" ++ [CR, LF] ∧
      ¬ m.Lands f false false := by
  have hentity : (import_data (lit "A: b" ++ [LF]) .ALL false).1
      = in_header [lit "A: b" ++ [LF]] := by
    rw [import_data_lines .ALL false Flag.noConfusion _ (by decide)]
    rfl
  have hlines : head_lines (lit "A: b" ++ [LF]) = [lit "A: b" ++ [LF], []] := by decide
  have hbreaks : lf_breaks (head_lines (lit "A: b" ++ [LF])).flatten := by
    intro a b hab
    have hmem : CR ∈ (head_lines (lit "A: b" ++ [LF])).flatten := by
      rw [hab]
      exact List.mem_append_right _ List.mem_cons_self
    exact absurd hmem (by decide)
  let m : Leaf_Message false :=
    { text := lit "A: b" ++ [LF]
      ne_nil := by decide
      ended := by rw [hlines]; decide
      breaks := hbreaks
      visible := by rw [hlines]; decide
      boundary := by rw [hentity]; decide
      content_type := by rw [hentity]; decide }
  let f : Header_Field :=
    { name := lit "X", text := lit " y", folded := []
      ne_nil := by decide
      token := token_of_all (by decide +kernel)
      other := by decide
      unbroken := fun c hc => by
        rcases List.mem_cons.mp hc with rfl | hc
        · decide
        · rw [List.mem_singleton.mp hc]
          decide
      folds := fun c hc => absurd hc List.not_mem_nil }
  have hheader : m.entity.header_ ≠ [[LF]] := by
    rw [show m.entity = in_header [lit "A: b" ++ [LF]] from hentity]
    decide
  have hno : ∀ c ∈ (lit "A: b" ++ [LF]).dropLast, c ≠ LF ∧ c ≠ CR :=
    (get_line_delimiter_none_iff _).mp rfl
  exact ⟨m, f, rfl, rfl, m.unbroken_lost f false false hno hheader⟩

end Leaf_Message

end Aos
