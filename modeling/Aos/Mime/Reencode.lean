/-
  Aos.Mime.Reencode — a body decoded, encoded anew, written and read again.

  `set_encoding` rewrites the first field of its name or puts one in front; the
  body is encoded by what the field says now.  Written and read again, the header
  says the new encoding and the body stands for the same bytes, if its encoded
  text does not begin with a line break: all blank lines behind a header are read
  into it.  A Base64 text never does, the others begin as the body does.

  Main results:
    • `set_encoding_parts` — the parts behind `set_encoding`;
    • `encode_text_start`  — how the encoded text begins;
    • `reencoded`          — the new encoding, and the same body.
-/
import Aos.Mime.AddHeader
import Aos.Mime.Body

namespace Aos

open Lib.Lines MIME_Entity

/-! ## §1. The setter. -/

/-- The field that `set_encoding` writes. -/
def encoding_field (encoding : Bytes) : Bytes :=
  lit "Content-Transfer-Encoding: " ++ encoding ++ lit "\r\n"

/-- The loop of `set_encoding`; `none` where `is_encoding_found` stays false. -/
def set_encoding_loop (encoding : Bytes) : MIME_Header_List → Option MIME_Header_List
  | [] => none
  | it :: header_ =>
      if strncasecmp it (lit "content-transfer-encoding:") 26 = 0 then
        some (encoding_field encoding :: header_)
      else (set_encoding_loop encoding header_).map (it :: ·)

namespace MIME_Entity

/-- `head_header(field)`. -/
def head_header (e : MIME_Entity) (field : Bytes) : MIME_Entity :=
  { e with header_ := field :: e.header_ }

/-- `set_encoding(encoding)`, which returns 0 always. -/
def set_encoding (e : MIME_Entity) (encoding : Bytes) : MIME_Entity :=
  match set_encoding_loop (c_str encoding) e.header_ with
  | some header_ => { e with header_ := header_ }
  | none => e.head_header (encoding_field (c_str encoding))

/-- `decode_body`, `set_encoding` and `encode_body`, one after the other. -/
def reencode (e : MIME_Entity) (encoding : Bytes) : Option MIME_Entity :=
  (e.decode_body.set_encoding encoding).encode_body

end MIME_Entity

/-- The transfer encodings by name. -/
inductive Transfer_Encoding where
  | base64
  | quoted_printable
  | seven_bit
  | eight_bit
  | binary
  deriving DecidableEq

namespace Transfer_Encoding

def name : Transfer_Encoding → Bytes
  | base64 => lit "base64"
  | quoted_printable => lit "quoted-printable"
  | seven_bit => lit "7bit"
  | eight_bit => lit "8bit"
  | binary => lit "binary"

variable (t : Transfer_Encoding)

theorem name_c_str : c_str t.name = t.name := by
  cases t with
  | base64 => decide
  | quoted_printable => decide
  | seven_bit => decide
  | eight_bit => decide
  | binary => decide

/-- What is written is read. -/
theorem written :
    strncasecmp (encoding_field t.name) (lit "content-transfer-encoding:") 26 = 0 ∧
      get_parameter (encoding_field t.name) (lit "content-transfer-encoding:") = t.name := by
  cases t with
  | base64 => decide
  | quoted_printable => decide
  | seven_bit => decide
  | eight_bit => decide
  | binary => decide

/-- The names have no line break. -/
theorem name_unbroken : ∀ c ∈ SP :: t.name, c ≠ LF ∧ c ≠ CR := by
  have hall : (SP :: t.name).all (fun c => decide (c ≠ LF ∧ c ≠ CR)) = true := by
    cases t with
    | base64 => decide
    | quoted_printable => decide
    | seven_bit => decide
    | eight_bit => decide
    | binary => decide
  exact fun c hc => of_decide_eq_true (List.all_eq_true.mp hall c hc)

/-- The name of the field is a token. -/
theorem field_name_token : ∀ c ∈ lit "Content-Transfer-Encoding", token_char c :=
  token_of_all (by decide +kernel)

/-- The field as a new one. -/
def field : Header_Field where
  name := lit "Content-Transfer-Encoding"
  text := SP :: t.name
  folded := []
  ne_nil := by decide
  token := field_name_token
  other := by decide
  unbroken := t.name_unbroken
  folds c hc := absurd hc List.not_mem_nil

theorem field_bytes : t.field.bytes = encoding_field t.name := by
  have hfront : lit "Content-Transfer-Encoding: "
      = lit "Content-Transfer-Encoding" ++ [HIDDEN_HEADER_CHAR, SP] := by decide
  have hend : lit "\r\n" = [CR, LF] := by decide
  unfold encoding_field Header_Field.bytes Header_Field.front field
  rw [hfront, hend]
  simp

end Transfer_Encoding

/-! ## §2. The header behind it. -/

/-- A field of the name that the setter looks for. -/
def is_transfer_encoding (it : Bytes) : Prop :=
  strncasecmp it (lit "content-transfer-encoding:") 26 = 0

/-- It is no "content-type:" field. -/
theorem is_transfer_encoding.not_content_type {it : Bytes} (h : is_transfer_encoding it) :
    strncasecmp it (lit "content-type:") 13 ≠ 0 := by
  intro hct
  -- the names differ in the tenth letter
  have hlower := congrArg (·[9]?) (lower_of_strncasecmp 26 it _ h (by decide) (by decide))
  have hother := congrArg (·[9]?) (lower_of_strncasecmp 13 it _ hct (by decide) (by decide))
  simp only [List.getElem?_map, List.getElem?_take_of_lt (by decide : 9 < 26),
    List.getElem?_take_of_lt (by decide : 9 < 13)] at hlower hother
  have hletters : some (tolower (schar 121)) = some (tolower (schar 114)) :=
    hother.symm.trans hlower
  exact absurd hletters (by decide)

/-- The loop stops at the first field of the name. -/
theorem set_encoding_loop_cases (encoding : Bytes) (header_ : MIME_Header_List) :
    (∃ A g B, header_ = A ++ g :: B ∧ (∀ a ∈ A, ¬ is_transfer_encoding a) ∧
        is_transfer_encoding g ∧
        set_encoding_loop encoding header_ = some (A ++ encoding_field encoding :: B)) ∨
      (∀ a ∈ header_, ¬ is_transfer_encoding a) ∧ set_encoding_loop encoding header_ = none := by
  induction header_ with
  | nil => exact Or.inr ⟨fun a ha => absurd ha List.not_mem_nil, rfl⟩
  | cons it header_ ih =>
      by_cases hit : strncasecmp it (lit "content-transfer-encoding:") 26 = 0
      · refine Or.inl ⟨[], it, header_, rfl, fun a ha => absurd ha List.not_mem_nil, hit, ?_⟩
        rw [set_encoding_loop, if_pos hit]
        rfl
      · rw [set_encoding_loop, if_neg hit]
        rcases ih with ⟨A, g, B, hsplit, hA, hg, hloop⟩ | ⟨hnone, hloop⟩
        · refine Or.inl ⟨it :: A, g, B, by rw [hsplit]; rfl, ?_, hg, by rw [hloop]; rfl⟩
          exact List.forall_mem_cons.mpr ⟨hit, hA⟩
        · exact Or.inr ⟨List.forall_mem_cons.mpr ⟨hit, hnone⟩, by rw [hloop]; rfl⟩

/-- The header says what its first field of the name says. -/
theorem get_encoding_written {e : MIME_Entity} (t : Transfer_Encoding) {A B : MIME_Header_List}
    (hA : ∀ a ∈ A, ¬ is_transfer_encoding a) (he : e.header_ = A ++ encoding_field t.name :: B) :
    e.get_encoding = t.name := by
  obtain ⟨hname, hvalue⟩ := t.written
  have hfind : e.header_.find? (fun it => strncasecmp it (lit "content-transfer-encoding:") 26 = 0)
      = some (encoding_field t.name) := by
    rw [he, List.find?_append, List.find?_eq_none.mpr fun a ha => by
      rw [decide_eq_true_iff]
      exact hA a ha, Option.none_or, List.find?_cons_of_pos (by rw [decide_eq_true_iff]; exact hname)]
  unfold get_encoding header_parameter
  rw [hfind]
  exact hvalue

section Parts

variable {fields blanks : MIME_Header_List} {body : Bytes} (h : Leaf_Parts fields blanks body)

include h

/-- A blank line is no field of the name. -/
theorem blank_not_encoding {a : Bytes} (ha : a ∈ blanks) : ¬ is_transfer_encoding a := by
  obtain ⟨b, s, rfl, hb⟩ := is_blank_cases (h.blank a ha).2
  intro hit
  have hlower := lower_of_strncasecmp 26 _ _ hit (by decide) (by decide)
  have hhead : some (tolower (schar b)) = some (tolower (schar 99)) := congrArg List.head? hlower
  rcases hb with rfl | rfl
  · exact absurd hhead (by decide)
  · exact absurd hhead (by decide)

/-- **The parts behind `set_encoding`.** -/
theorem set_encoding_parts {e : MIME_Entity} (he : e.header_ = fields ++ blanks)
    (hbreaks : lf_breaks fields.flatten) (t : Transfer_Encoding) :
    ∃ fields', (e.set_encoding t.name).header_ = fields' ++ blanks ∧
      Leaf_Parts fields' blanks body ∧
      (∀ text, get_line_delimiter (leaf_text fields' blanks text) = LF) ∧
      ∃ A B, fields' = A ++ encoding_field t.name :: B ∧ ∀ a ∈ A, ¬ is_transfer_encoding a := by
  have hset : (e.set_encoding t.name).header_
      = (set_encoding_loop t.name (fields ++ blanks)).getD
          (encoding_field t.name :: (fields ++ blanks)) := by
    unfold set_encoding
    rw [t.name_c_str, he]
    cases set_encoding_loop t.name (fields ++ blanks) with
    | none =>
        show encoding_field t.name :: e.header_ = _
        rw [he]
        rfl
    | some header_ => rfl
  have hfield := t.field_bytes
  rcases set_encoding_loop_cases t.name (fields ++ blanks) with
    ⟨A, g, B, hsplit, hA, hg, hloop⟩ | ⟨hnone, hloop⟩
  · -- the field that is replaced is none of the blank lines
    obtain ⟨B', hfields, rfl⟩ : ∃ B', fields = A ++ g :: B' ∧ B = B' ++ blanks := by
      rcases List.append_eq_append_iff.mp hsplit with ⟨A', rfl, hrest⟩ | ⟨C, rfl, hrest⟩
      · have hmem : g ∈ blanks := by
          rw [hrest]
          exact List.mem_append_right _ List.mem_cons_self
        exact absurd hg (blank_not_encoding h hmem)
      · cases C with
        | nil =>
            have hmem : g ∈ blanks := by
              rw [← List.nil_append blanks, ← hrest]
              exact List.mem_cons_self
            exact absurd hg (blank_not_encoding h hmem)
        | cons c C =>
            obtain ⟨rfl, rfl⟩ := List.cons.inj hrest
            exact ⟨C, rfl, rfl⟩
    subst hfields
    have hnew := inserted (left_out h hg.not_content_type) t.field
    have hwhole : ∀ a ∈ A, whole_field a := fun a ha => h.whole a (List.mem_append_left _ ha)
    have hfront : lf_breaks A.flatten := by
      rw [List.flatten_append] at hbreaks
      exact hbreaks.front (fields_last hwhole)
    have hd : ∀ text, get_line_delimiter (leaf_text (A ++ t.field.bytes :: B') blanks text) = LF :=
      fun text => inserted_delimiter hwhole hfront t.field
    rw [hfield] at hnew hd
    refine ⟨_, ?_, hnew, hd, A, B', rfl, hA⟩
    rw [hset, hloop, Option.getD_some, List.append_assoc]
    rfl
  · -- there is none, and it is put in front
    have hnew := inserted (A := []) h t.field
    have hd := fun text => t.field.leaf_delimiter fields blanks text
    rw [hfield] at hnew hd
    refine ⟨_, ?_, hnew, hd, [], fields, rfl, fun a ha => absurd ha List.not_mem_nil⟩
    rw [hset, hloop, Option.getD_none]
    rfl

end Parts

/-! ## §3. How an encoded text begins. -/

/-- The two codecs by name. -/
theorem codec_of_name {e : MIME_Entity} (t : Transfer_Encoding) (he : e.get_encoding = t.name) :
    e.is_base64 = decide (t = .base64) ∧ e.is_qp = decide (t = .quoted_printable) := by
  unfold is_base64 is_qp
  rw [he]
  cases t with
  | base64 => decide
  | quoted_printable => decide
  | seven_bit => decide
  | eight_bit => decide
  | binary => decide

/-- **How the encoded text begins.**  A Base64 text begins with no line break, any other with one
    only if the text does. -/
theorem encode_text_start {e : MIME_Entity} (t : Transfer_Encoding) (he : e.get_encoding = t.name)
    {s : Bytes} (hs : s ≠ []) (h : t = .base64 ∨ is_blank s = false) :
    is_blank (e.encode_text s) = false := by
  obtain ⟨h64, hqp⟩ := codec_of_name t he
  unfold encode_text
  rw [h64, hqp]
  by_cases hbase : t = .base64
  · obtain ⟨i, hi, rest, hrest⟩ := Base64.encode_start Base64.DEFAULT_LINE_SIZE hs
    -- a line break has no code
    have hcode : Base64.dec (Base64.enc i) = i := (Base64.dec_enc i hi).1
    have hno : ¬ (Base64.enc i = CR ∨ Base64.enc i = LF) := by
      rintro (h | h)
      · rw [h, Base64.dec_CR] at hcode
        omega
      · rw [h, Base64.dec_LF] at hcode
        omega
    rw [if_pos (decide_eq_true hbase), hrest]
    exact decide_eq_false hno
  · have hstart : is_blank s = false := h.resolve_left hbase
    rw [if_neg (by rw [decide_eq_true_iff]; exact hbase)]
    split_ifs
    · obtain ⟨b, rest, rfl⟩ := List.exists_cons_of_ne_nil hs
      have hb : ¬ (b = CR ∨ b = LF) := of_decide_eq_false hstart
      obtain ⟨c, out, hout, hc⟩ := QP.encode_start b rest
      rw [hout]
      rcases hc with rfl | rfl
      · exact decide_eq_false hb
      · exact decide_eq_false (by decide : ¬ (QP.EQ = CR ∨ QP.EQ = LF))
    · exact hstart

/-! ## §4. There and back. -/

/-- The codec is chosen by the header. -/
theorem same_codec {e e' : MIME_Entity} (h : e.get_encoding = e'.get_encoding) (s : Bytes) :
    e.decode_text s = e'.decode_text s := by
  unfold decode_text is_base64 is_qp
  rw [h]

/-- The body is decoded once: what is copied out of an entity is what `decode_body` leaves. -/
theorem decoded_body (e : MIME_Entity) {d : Bytes}
    (hd : e.copy_decoded_body.map Prod.snd = some d) :
    e.decode_body.body = d ∧ (d ≠ [] → e.decode_body.is_encoded = false) := by
  rw [copy_decoded_body_eq, Option.map_some] at hd
  obtain rfl := Option.some.inj hd
  rw [decode_body_eq]
  by_cases hempty : e.empty_body = true
  · rw [if_pos (Or.inl hempty), if_pos hempty]
    exact ⟨body_of_empty e hempty, fun hne => absurd rfl hne⟩
  · by_cases henc : e.is_encoded = true
    · rw [if_neg (not_or.mpr ⟨hempty, not_not.mpr henc⟩), if_neg hempty, if_neg (not_not.mpr henc)]
      exact ⟨clear_encoded_body _, fun _ => is_encoded_clear _⟩
    · rw [if_pos (Or.inr henc), if_neg hempty, if_pos henc]
      exact ⟨rfl, fun _ => by simpa using henc⟩

/-- Nothing but the body and the status is touched. -/
theorem decode_body_frame (e : MIME_Entity) :
    e.decode_body.header_ = e.header_ ∧ e.decode_body.preamble_ = e.preamble_ ∧
      e.decode_body.epilogue_ = e.epilogue_ ∧ e.decode_body.child_ = e.child_ := by
  rw [decode_body_eq]
  split_ifs
  · exact ⟨rfl, rfl, rfl, rfl⟩
  · unfold clear_encoded
    split_ifs
    · exact ⟨rfl, rfl, rfl, rfl⟩
    · exact ⟨rfl, rfl, rfl, rfl⟩

/-- The body that `encode_body` leaves of a decoded one, and nothing else is touched. -/
theorem encoded_body (e : MIME_Entity) (hclear : e.body ≠ [] → e.is_encoded = false) :
    ∃ e', e.encode_body = some e' ∧
      (e'.header_ = e.header_ ∧ e'.preamble_ = e.preamble_ ∧ e'.epilogue_ = e.epilogue_ ∧
        e'.child_ = e.child_) ∧
      e'.body = if e.body = [] then [] else e.encode_text e.body := by
  rw [encode_body_eq]
  by_cases hnil : e.body = []
  · have hempty : e.empty_body = true := decide_eq_true (Or.inr hnil)
    rw [if_pos (Or.inl hempty), if_pos hnil]
    exact ⟨e, rfl, ⟨rfl, rfl, rfl, rfl⟩, hnil⟩
  · have hfull : ¬ (e.body_ = none ∨ e.body = []) := by
      rintro (h | h)
      · exact hnil (by rw [MIME_Entity.body, h]; rfl)
      · exact hnil h
    rw [if_neg (by rw [hclear hnil, MIME_Entity.empty_body, decide_eq_false hfull]; simp),
      if_neg hnil]
    exact ⟨_, rfl, ⟨rfl, rfl, rfl, rfl⟩, rfl⟩

/-- `set_encoding` touches the header only. -/
theorem set_encoding_frame (e : MIME_Entity) (encoding : Bytes) :
    e.set_encoding encoding = { e with header_ := (e.set_encoding encoding).header_ } := by
  unfold set_encoding
  cases set_encoding_loop (c_str encoding) e.header_ with
  | none => rfl
  | some header_ => rfl

/-- What `copy_decoded_body` takes from a leaf with a blank line. -/
theorem read_leaf_copy {fields blanks : MIME_Header_List} {body : Bytes} (hb : blanks ≠ []) :
    (read_leaf fields blanks body).copy_decoded_body.map Prod.snd
      = some (if body = [] then [] else (read_leaf fields blanks body).decode_text body) := by
  have henc : (read_leaf fields blanks body).is_encoded = true := by
    rw [read_leaf, if_neg hb]
    exact decide_eq_true (by decide : BODY_ENCODED &&& BODY_ENCODED ≠ 0)
  have hbody : (read_leaf fields blanks body).body = body := by
    rw [read_leaf, if_neg hb]
    rfl
  have hempty : (read_leaf fields blanks body).empty_body = decide (body = []) := by
    rw [read_leaf, if_neg hb]
    show decide (some body = none ∨ body = []) = _
    simp
  rw [copy_decoded_body_eq, Option.map_some, hempty, henc, hbody]
  by_cases hnil : body = []
  · rw [if_pos hnil, if_pos (decide_eq_true hnil)]
  · rw [if_neg hnil, if_neg (by rw [decide_eq_true_iff]; exact hnil), if_neg (not_not.mpr rfl)]

namespace Leaf_Message

variable {no_hidden_header : Bool} (m : Leaf_Message no_hidden_header)

/-- Between a field and a blank line stands a line break. -/
theorem closed_delimiter (hfields : m.fields ≠ []) (hblanks : m.blanks ≠ []) :
    get_line_delimiter m.text = LF := by
  obtain ⟨hclosed, -⟩ := m.field_lines_closed hblanks
  have hsome : m.field_text ≠ [] := fun hnil => hfields (by rw [Leaf_Message.fields, hnil]; rfl)
  obtain ⟨l, ls, hl⟩ := List.exists_cons_of_ne_nil hsome
  obtain ⟨b, bs, hb⟩ := List.exists_cons_of_ne_nil hblanks
  have hline : l ∈ field_lines (all_lines LF m.text) := by
    rw [hclosed, hl]
    exact List.mem_cons_self
  have hne : l ≠ [] :=
    of_decide_eq_true (List.mem_filter.mp (hl ▸ List.mem_cons_self : l ∈ m.field_text)).2
  have hlf : LF ∈ l := (m.header_isLine (List.mem_append_left _ hline) hne).mem
  -- the blank line stands behind it
  have htext : m.text = m.field_text.flatten
      ++ (m.blanks ++ content_lines (all_lines LF m.text)).flatten := by
    conv_lhs => rw [← all_lines_flatten LF m.text, m.all_parts, hclosed, List.flatten_append]
  have hbehind : (m.blanks ++ content_lines (all_lines LF m.text)).flatten ≠ [] := by
    obtain ⟨c, s, hcs, -⟩ := is_blank_cases (blank_lines_blank _ b
      (show b ∈ m.blanks by rw [hb]; exact List.mem_cons_self))
    rw [hb, hcs]
    exact List.cons_ne_nil _ _
  refine m.delimiter ⟨LF, ?_, Or.inl rfl⟩
  rw [htext, List.dropLast_append_of_ne_nil hbehind, hl]
  exact List.mem_append_left _ (List.mem_append_left _ hlf)

/-- **A body is encoded anew.**  The header says the new encoding and the body stands for the same
    bytes, for Base64 always, and for the others unless it begins with a line break. -/
theorem reencoded (hfields : m.fields ≠ []) (hblanks : m.blanks ≠ []) (t : Transfer_Encoding)
    {d : Bytes} (hd : m.entity.copy_decoded_body.map Prod.snd = some d)
    (h : t = .base64 ∨ is_blank d = false) (hidden hidden' : Bool) :
    ∃ e, m.entity.reencode t.name = some e ∧
      (e.read_again hidden hidden').get_encoding = t.name ∧
      (e.read_again hidden hidden').copy_decoded_body.map Prod.snd = some d := by
  have hdelim := m.closed_delimiter hfields hblanks
  have hparts := m.parts hdelim
  have hheader := read_leaf_header m.fields m.blanks m.content
  have hbare := read_leaf_bare hparts
  rw [← m.entity_eq hdelim] at hheader hbare
  rw [if_neg hblanks] at hheader
  obtain ⟨hp, he, hc⟩ := hbare
  -- decoded
  obtain ⟨hbody, hclear⟩ := decoded_body m.entity hd
  obtain ⟨hsame, hp', he', hc'⟩ := decode_body_frame m.entity
  -- the new field
  obtain ⟨fields', hset, hparts', hbreak, A, B, hfields', hA⟩ :=
    set_encoding_parts hparts (hsame.trans hheader) m.fields_breaks t
  have hframe := set_encoding_frame m.entity.decode_body t.name
  have henc := get_encoding_written t hA (hset.trans (by rw [hfields', List.append_assoc]; rfl))
  have hencode : (m.entity.decode_body.set_encoding t.name).body = d := by
    rw [hframe]
    exact hbody
  -- encoded, written and read again
  obtain ⟨e, hsome, ⟨hheader', hpre, hepi, hchild⟩, htext⟩ :=
    encoded_body (m.entity.decode_body.set_encoding t.name) (by
      rw [hencode, hframe]
      exact hclear)
  rw [hencode] at htext
  have hnew : Leaf_Parts fields' m.blanks e.body :=
    { hparts' with
      start := by
        rw [htext]
        by_cases hnil : d = []
        · rw [if_pos hnil]
          decide
        · rw [if_neg hnil]
          exact encode_text_start t henc hnil h
      empty := fun hnone => absurd hnone hblanks }
  have hread := read_again_parts hnew (e := e) (by rw [hpre, hframe]; exact hp'.trans hp)
    (by rw [hepi, hframe]; exact he'.trans he) (by rw [hchild, hframe]; exact hc'.trans hc)
    (by rw [hheader', hset, if_neg hblanks]) rfl (hbreak e.body) hidden hidden'
  have hagain : (read_leaf fields' m.blanks e.body).header_
      = A ++ encoding_field t.name :: (B ++ m.blanks) := by
    rw [read_leaf_header, if_neg hblanks, hfields', List.append_assoc]
    rfl
  have htold := get_encoding_written t hA hagain
  refine ⟨e, hsome, ?_, ?_⟩
  · rw [hread]
    exact htold
  · rw [hread, read_leaf_copy hblanks]
    congr 1
    -- an empty body is not encoded
    by_cases hnil : d = []
    · rw [if_pos (htext.trans (if_pos hnil)), hnil]
    · have hcoded := htext.trans (if_neg hnil)
      rw [if_neg (by rw [hcoded]; exact encode_text_ne_nil _ d hnil),
        same_codec (htold.trans henc.symm), hcoded, decode_encode_text]

/-! ## §5. A body that begins with a line break. -/

/-- One field and blank lines. -/
theorem encoding_parts (t : Transfer_Encoding) (blanks : MIME_Header_List) (body : Bytes)
    (hblank : ∀ b ∈ blanks, IsLine LF b ∧ is_blank b = true) (hstart : is_blank body = false)
    (hempty : blanks = [] → body = []) :
    Leaf_Parts [encoding_field t.name] blanks body ∧
      get_line_delimiter (leaf_text [encoding_field t.name] blanks body) = LF := by
  have hnone : Leaf_Parts [] blanks body :=
    { whole := fun f hf => absurd hf List.not_mem_nil
      blank := hblank
      start := hstart
      empty := hempty
      boundary := by decide
      content_type := by decide }
  have hone := inserted (A := []) (B := []) hnone t.field
  have hd := t.field.leaf_delimiter [] blanks body
  rw [t.field_bytes] at hone hd
  exact ⟨hone, hd⟩

theorem crlf_blank : IsLine LF (lit "\r\n") ∧ is_blank (lit "\r\n") = true :=
  ⟨⟨[CR], by decide, rfl⟩, by decide⟩

theorem lf_blank : IsLine LF (lit "\n") ∧ is_blank (lit "\n") = true :=
  ⟨⟨[], by decide, rfl⟩, by decide⟩

/-- A quoted-printable body whose first line is empty, in front of the codec an escape. -/
def escaped_text : Bytes :=
  leaf_text [encoding_field (lit "quoted-printable")] [lit "\r\n"] (lit "=0Ax\r\n")

theorem escaped_entity : (import_data escaped_text .ALL false).1
    = read_leaf [encoding_field (lit "quoted-printable")] [lit "\r\n"] (lit "=0Ax\r\n") := by
  obtain ⟨hparts, hd⟩ := encoding_parts .quoted_printable [lit "\r\n"] (lit "=0Ax\r\n")
    (fun b hb => List.mem_singleton.mp hb ▸ crlf_blank) (by decide) (fun h => absurd h (by decide))
  exact import_leaf hparts false hd

def escaped : Leaf_Message false where
  text := escaped_text
  ne_nil := by decide
  ended := by decide
  breaks := by
    have hlines : (head_lines escaped_text).flatten
        = (lit "Content-Transfer-Encoding: quoted-printable" ++ [CR, LF]) ++ ([] ++ [CR, LF]) := by
      decide
    rw [hlines]
    exact (lf_breaks_line (by decide)).append (lf_breaks_line (by decide))
  visible := by decide
  boundary := by
    rw [escaped_entity]
    decide
  content_type := by
    rw [escaped_entity]
    decide

theorem escaped_decoded :
    escaped.entity.copy_decoded_body.map Prod.snd = some (lit "\nx\r\n") := by
  rw [show escaped.entity = _ from escaped_entity, read_leaf_copy (by decide)]
  decide

/-- In quoted-printable the line break is written as it is, and read into the header. -/
theorem escaped_again (hidden hidden' : Bool) :
    ∃ e, escaped.entity.reencode (lit "quoted-printable") = some e ∧
      (e.read_again hidden hidden').copy_decoded_body.map Prod.snd = some (lit "x\r\n") := by
  have hre : escaped.entity.reencode (lit "quoted-printable")
      = some (read_leaf [encoding_field (lit "quoted-printable")] [lit "\r\n"]
          (lit "\nx\r\n")) := by
    rw [show escaped.entity = _ from escaped_entity]
    rfl
  obtain ⟨hparts, hd⟩ := encoding_parts .quoted_printable [lit "\r\n", lit "\n"] (lit "x\r\n")
    (fun b hb => by
      rcases List.mem_cons.mp hb with rfl | hb
      · exact crlf_blank
      · exact List.mem_singleton.mp hb ▸ lf_blank)
    (by decide) (fun h => absurd h (by decide))
  have hread : (read_leaf [encoding_field (lit "quoted-printable")] [lit "\r\n"]
      (lit "\nx\r\n")).read_again hidden hidden'
      = read_leaf [encoding_field (lit "quoted-printable")] [lit "\r\n", lit "\n"]
          (lit "x\r\n") := by
    unfold MIME_Entity.read_again
    rw [export_visible rfl rfl rfl (by decide) hidden]
    exact import_leaf hparts hidden' hd
  refine ⟨_, hre, ?_⟩
  rw [hread, read_leaf_copy (by decide)]
  decide

/-- The message "Content-Transfer-Encoding: quoted-printable\r\n\r\n=0Ax\r\n" in Base64. -/
theorem reencoded_escaped :
    ∃ e, escaped.entity.reencode (lit "base64") = some e ∧
      (e.read_again false false).get_encoding = lit "base64" ∧
      (e.read_again false false).copy_decoded_body.map Prod.snd = some (lit "\nx\r\n") :=
  escaped.reencoded (by decide) (by decide) .base64 escaped_decoded (Or.inl rfl) false false

/-- The same message in quoted-printable loses its first line. -/
theorem reencoded_loses_line :
    escaped.entity.copy_decoded_body.map Prod.snd = some (lit "\nx\r\n") ∧
      ∃ e, escaped.entity.reencode (lit "quoted-printable") = some e ∧
        (e.read_again false false).copy_decoded_body.map Prod.snd ≠ some (lit "\nx\r\n") := by
  obtain ⟨e, hsome, hread⟩ := escaped_again false false
  refine ⟨escaped_decoded, e, hsome, ?_⟩
  rw [hread]
  decide

end Leaf_Message

end Aos
